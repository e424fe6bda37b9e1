import ArmLink.Proofs.Link.Alignments
import ArmLink.Proofs.Link.TextRel

/-!
# String variables in memory

A string variable that is set on the command line takes effect in the loaded program: its name leads
to a pair of an address and a length, and the bytes of its value are found there. That holds
whatever the object files said of the two symbols, unless they put one of them within another
symbol: the bytes of such a symbol are those of the symbol around it.
-/

namespace ArmLink

open SymbolTable List Bytes

variable {t t' : SymbolTable} {name value : String} {id bytesId : SymbolId}

namespace SymbolTable

theorem Apart.symm {name name' : String} (h : Apart name name') : Apart name' name :=
  ⟨h.1.symm, h.2.2, h.2.1⟩

theorem StandsFor.keeps (h : StandsFor t name value id bytesId)
    (hkeeps : Keeps (fun s => (s.name, s.version, s.body)) t t') :
    StandsFor t' name value id bytesId := by
  have hnames : Keeps (fun s => (s.name, s.version)) t t' := hkeeps.map fun x => (x.1, x.2.1)
  have hbody (j : SymbolId) : (t'.get j).body = (t.get j).body := congrArg (·.2.2) (hkeeps.2 j)
  exact ⟨(hnames.find? _ _).trans h.found, (hnames.find? _ _).trans h.foundBytes,
    (hbody id).trans h.pair, (hbody bytesId).trans h.bytes⟩

theorem StandsFor.refers (h : StandsFor t name value id bytesId) : Refers t id bytesId := by
  exact .target (h.relocations ▸ mem_singleton_self _) rfl

end SymbolTable

namespace Link

variable {settings : List (String × String)} {ids : List SymbolId} {o : Options}
  {objects : List Object} {kept : SymbolTable}

/-! ## Setting variables -/

theorem standsFor_addVariables (h : addVariables settings t = .ok (ids, t'))
    (hapart : ∀ x ∈ settings, Apart x.1 name) (hstands : StandsFor t name value id bytesId) :
    StandsFor t' name value id bytesId := by
  induction settings generalizing t ids with
  | nil =>
    cases h
    exact hstands
  | cons x settings ih =>
    obtain ⟨⟨id₁, t₁⟩, hfirst, h⟩ := bind_eq_ok.mp h
    obtain ⟨⟨ids₁, t₂⟩, hrest, ⟨⟩⟩ := bind_pure_eq_ok.mp h
    obtain ⟨-, hspares⟩ := addStringVariable_ok (mapError_eq_ok.mp hfirst)
    obtain ⟨hx, hothers⟩ := forall_mem_cons.mp hapart
    exact ih hrest hothers (hstands.spares hspares hx)

/-- **Settings.** Variables that are set stand for their values. -/
theorem addVariables_ok (h : addVariables settings t = .ok (ids, t'))
    (hapart : settings.Pairwise fun x y => Apart x.1 y.1) :
    ∀ x ∈ settings, ∃ id ∈ ids, ∃ bytesId, StandsFor t' x.1 x.2 id bytesId := by
  induction settings generalizing t ids with
  | nil => exact forall_mem_nil _
  | cons x settings ih =>
    obtain ⟨⟨id₁, t₁⟩, hfirst, h⟩ := bind_eq_ok.mp h
    obtain ⟨⟨ids₁, t₂⟩, hrest, ⟨⟩⟩ := bind_pure_eq_ok.mp h
    obtain ⟨⟨bytesId, hstands⟩, -⟩ := addStringVariable_ok (mapError_eq_ok.mp hfirst)
    obtain ⟨hx, hothers⟩ := pairwise_cons.mp hapart
    refine forall_mem_cons.mpr ⟨⟨id₁, mem_cons_self, bytesId, ?_⟩, fun y hy => ?_⟩
    · exact standsFor_addVariables hrest (fun y hy => (hx y hy).symm) hstands
    · obtain ⟨id, hid, hy⟩ := ih hrest hothers y hy
      exact ⟨id, mem_cons_of_mem _ hid, hy⟩

/-- **Kept.** The symbols of variables are kept. -/
theorem standsFor_of_collect (hkept : collect o objects = .ok kept)
    (hapart : o.stringVariables.Pairwise fun x y => Apart x.1 y.1)
    (hset : (name, value) ∈ o.stringVariables) :
    ∃ id bytesId, StandsFor kept name value id bytesId ∧ (kept.get id).reachable = true ∧
      (kept.get bytesId).reachable = true := by
  obtain ⟨t₁, -, hkept⟩ := run_bind_eq_ok.mp hkept
  obtain ⟨⟨ids, t₂⟩, hvariables, hkept⟩ := run_bind_eq_ok.mp hkept
  cases hkept
  obtain ⟨id, hid, bytesId, hstands⟩ := addVariables_ok hvariables hapart _ hset
  have hkeeps := t₂.keeps_markReachable (roots o ids t₂)
  have hroot : id ∈ roots o ids t₂ := mem_append_left _ (mem_append_left _ hid)
  refine ⟨id, bytesId, hstands.keeps (hkeeps.map fun s => (s.name, s.version, s.body)), ?_, ?_⟩
  · have hlt := (find?_eq_some hstands.found).1
    exact (reachable_markReachable_iff t₂ _ hlt).mpr (.inr ⟨id, hroot, .refl⟩)
  · have hlt := (find?_eq_some hstands.foundBytes).1
    exact (reachable_markReachable_iff t₂ _ hlt).mpr (.inr ⟨id, hroot, .single hstands.refers⟩)

/-! ## Up to layout -/

open DynamicTables Layout Resolve

variable {s s' : Lowering} {u : SymbolTable} {layout : Layout} {owners : List SymbolId}
  {external : Bool} {owner : SymbolId}

theorem Evolves.contents (h : Evolves owners s s') (hid : id ∉ tables s.1) :
    (s'.2.get id).data = (s.2.get id).data ∧ (s'.2.get id).size = (s.2.get id).size := by
  cases h with
  | static hkeeps =>
    exact ⟨(hkeeps.map Symbol.data).2 id, (hkeeps.map Symbol.size).2 id⟩
  | dynamic hgrows => exact hgrows.contents id hid

/-- What was defined has its name and its bytes when relocations are lowered. -/
theorem contents_of_makeDynamic (h : (makeDynamic (m := Id) .silent o kept).run = .ok s) :
    (∀ name version id, kept.find? name version = some id → s.2.find? name version = some id) ∧
      ∀ id, (kept.get id).isDefined = true →
        (s.2.get id).data = (kept.get id).data ∧ (s.2.get id).size = (kept.get id).size := by
  simp only [makeDynamic] at h
  split at h
  · obtain ⟨⟨d, t⟩, hstep, h⟩ := run_bind_eq_ok.mp h
    have hsetup := setup_ok (mapError_eq_ok.mp hstep)
    have hgrows := grows_exportSymbols d t
    cases h
    refine ⟨fun name version id hfind => ?_, fun id hid => ?_⟩
    · rw [hgrows.shell.finds _ _ fun _ => rfl]
      exact hsetup.kept name version id hfind
    · have htable : id ∉ d.all := fun hmem => by
        rw [hsetup.undefined id hmem] at hid
        cases hid
      rw [← hsetup.other id htable]
      exact hgrows.contents id htable
  · cases h
    exact ⟨fun _ _ _ hfind => hfind, fun _ _ => ⟨rfl, rfl⟩⟩

/-- An address of a symbol that no library provides stays as it is when relocations are lowered. -/
theorem LoweredBetween.absolute {r : Relocation SymbolId} {target : SymbolId} {addend : Word64}
    {outcome? : Option (Relocation.Outcome SymbolId)}
    (h : LoweredBetween external owners owner s s' r outcome?)
    (hr : r.outcome = .pending .absolute (some target) addend)
    (htarget : (s.2.get target).isImport = false) : remains (r, outcome?) = some r := by
  obtain ⟨s₁, lowered, hevolves, hlower, rfl, -⟩ := h
  have himport : (s₁.2.get target).isImport = false :=
    ((hevolves.shell.map Symbol.isImport).2 target).trans htarget
  have houtcome : lowered.outcome = some r.outcome := by
    simp only [lowerRelocation, hr, himport] at hlower
    split at hlower
    · cases hlower
      exact congrArg some hr.symm
    · cases hlower
      exact congrArg some hr.symm
  rw [remains, houtcome]
  rfl

/-- **Contents up to layout.** A symbol that is defined and kept, and all of whose relocations are
addresses of symbols that no library provides, is laid out as it was kept. -/
theorem Staged.body (h : Staged o kept s s' u layout t) (hkept : kept.Collected)
    (hdefined : (kept.get id).isDefined = true) (hreach : (kept.get id).reachable = true)
    (habsolute : ∀ r ∈ (kept.get id).relocations, ∃ target addend,
      r.outcome = .pending .absolute (some target) addend ∧ (kept.get target).isImport = false) :
    (u.get id).body = (kept.get id).body ∧ (u.get id).reachable = true ∧
      (u.get id).outer = (kept.get id).outer := by
  have hstarted := started_of_makeDynamic hkept h.made
  obtain ⟨htable, hshell, hrelocations⟩ := hstarted.defined id hdefined
  obtain ⟨hdata, hsize⟩ := (contents_of_makeDynamic h.made).2 id hdefined
  obtain ⟨hevolves, hlowered⟩ := lower_ok h.lowered
  obtain ⟨d?, hfinish⟩ := evolves_finishDynamic h.finished
  have htable' : id ∉ tables s'.1 := hevolves.tables ▸ htable
  have hshell' : shell (u.get id) = shell (kept.get id) :=
    ((hevolves.shell.trans hfinish.shell).2 id).trans hshell
  have hdata' := (Evolves.contents hfinish htable').1.trans (Evolves.contents hevolves htable).1
  have hsize' := (Evolves.contents hfinish htable').2.trans (Evolves.contents hevolves htable).2
  have hrelocations' : (u.get id).relocations = (kept.get id).relocations := by
    have hreach' : (s.2.get id).reachable = true := (congrArg Symbol.reachable hshell).trans hreach
    obtain ⟨lowered, hmap, hremain, hbetween⟩ := hlowered id htable hreach'
    rw [hfinish.relocations htable' not_mem_nil, hremain, ← hrelocations, ← hmap,
      ← filterMap_eq_map]
    refine filterMap_congr fun x hx => ?_
    have hmem : x.1 ∈ (kept.get id).relocations := by
      rw [← hrelocations, ← hmap]
      exact mem_map_of_mem hx
    obtain ⟨target, addend, hr, htarget⟩ := habsolute x.1 hmem
    exact LoweredBetween.absolute (hbetween x hx) hr ((hstarted.imports target).trans htarget)
  have hread {α : Type} {p : Symbol → α} (hp : ∀ s, p (shell s) = p s) :
      p (u.get id) = p (kept.get id) := by rw [← hp, hshell', hp]
  refine ⟨?_, (hread fun _ => rfl).trans hreach, hread fun _ => rfl⟩
  have hspecial : (u.get id).special = (kept.get id).special := hread fun _ => rfl
  have hkind : (u.get id).kind = (kept.get id).kind := hread fun _ => rfl
  simp only [Symbol.body, hspecial, hkind, hdata', hsize', hrelocations', hdata, hsize]

theorem Staged.standsFor (h : Staged o kept s s' u layout t) (hkept : kept.Collected)
    (hstands : StandsFor kept name value id bytesId) (hid : (kept.get id).reachable = true)
    (hbytes : (kept.get bytesId).reachable = true) :
    StandsFor u name value id bytesId ∧ (u.get id).reachable = true ∧
      (u.get bytesId).reachable = true := by
  obtain ⟨d?, hfinish⟩ := evolves_finishDynamic h.finished
  have hshell := (lower_ok h.lowered).1.shell.trans hfinish.shell
  have hfound {name : String} {id : SymbolId} (hfind : kept.find? name 0 = some id) :
      u.find? name 0 = some id :=
    (hshell.finds _ _ fun _ => rfl).trans ((contents_of_makeDynamic h.made).1 _ _ _ hfind)
  obtain ⟨hpair, hpairReach, -⟩ := h.body hkept (by simp [Symbol.isDefined, hstands.kind]) hid (by
    rw [hstands.relocations]
    refine forall_mem_singleton.mpr ⟨bytesId, 0, rfl, ?_⟩
    simp [Symbol.isImport, hstands.kind_bytes])
  obtain ⟨hbody, hbytesReach, -⟩ :=
    h.body hkept (by simp [Symbol.isDefined, hstands.kind_bytes]) hbytes
      (by simp [hstands.relocations_bytes])
  exact ⟨⟨hfound hstands.found, hfound hstands.foundBytes, hpair.trans hstands.pair,
    hbody.trans hstands.bytes⟩, hpairReach, hbytesReach⟩

/-! ## In memory -/

variable {placed : Placed} {uuid : Bytes} {image : Array UInt8} {t₀ : SymbolTable}
  {fills : List Fill}

theorem ofWord_ofNat (n : Nat) : ofWord (.ofNat 32 n) = ofNat 4 n := by
  exact ofNat_mod 4 n

theorem patch_word (n : Nat) (rest : Bytes) :
    patch (ofWord 0 ++ rest) 0 (ofNat 4 n) = ofNat 4 n ++ rest := by
  have hpadding : 0 + (ofNat 4 n).length - (ofWord 0 ++ rest).length = 0 := by
    rw [length_append, length_ofNat, length_ofWord]
    omega
  rw [patch, hpadding]
  simp [zeros]

/-- An address of four bytes is not the one behind all such addresses. -/
theorem toNat_lt_of_checkFit {v : Word64} (h : checkFit .absolute 4 v = .ok ())
    (hle : v.toNat ≤ 2 ^ 32) : v.toNat < 2 ^ 32 := by
  refine Nat.lt_of_le_of_ne hle fun heq => ?_
  have hv : v = .ofNat 64 (2 ^ 32) := by rw [← heq, BitVec.ofNat_toNat, BitVec.setWidth_eq]
  rw [hv] at h
  revert h
  decide

/-- Layout leaves contents alone, unless they decide the kind. -/
theorem body_of_computed (hc : Computed u layout t t₀ fills)
    (hspecial : (u.get id).special = false) (hbss : (u.get id).kind ≠ .bss)
    (hnoPtrBss : (u.get id).kind ≠ .noPtrBss) : (t.get id).body = (u.get id).body := by
  have hkind : (promoted (u.get id)).kind = (u.get id).kind := by
    rcases kind_promoted (u.get id) with hkind | ⟨hkind, -⟩ | ⟨hkind, -⟩
    · exact hkind
    · exact absurd hkind hbss
    · exact absurd hkind hnoPtrBss
  have hpromoted : t₀.get id = u.get id := by rw [hc.promoted, promoted_eq, hkind]
  rw [hc.finished.ordinary id (hpromoted ▸ hspecial), hpromoted]
  rfl

/-- A symbol with contents that lies within no other is found in memory. -/
theorem LaidOut.load_contents (h : LaidOut o u t placed) (hmode : o.isExternal = false)
    (huuid : uuid.length = 16) (himage : Link.image o placed uuid = .ok image)
    (hcandidate : isCandidate (u.get id) = true) (hplaced : (t.get id).kind.isPlaced = true)
    (hdata : (t.get id).data ≠ []) {v i : Nat} (hv : (placed.table.get id).value = some v)
    (hi : i < (placed.table.get id).data.length) :
    Image.load image (v + i) = (placed.table.get id).data[i]? := by
  obtain ⟨t₀, fills, hc⟩ := compute_ok h.sentinels h.computed
  obtain ⟨s, hs, hid⟩ := mem_flatMap.mp (hc.mem_symbols.mpr ⟨hcandidate, hplaced⟩)
  have hstored : s.type ≠ Elf.SectionType.noBits := fun htype =>
    hdata (hc.no_contents hs htype hid).1
  have hsegment : s.segment ≠ .tls := fun htls => by
    have hload := (mem_filter.mp (hc.mem_loaded hs hstored)).2
    rw [htls] at hload
    revert hload
    decide
  have hsize := (h.keeps.read Symbol.size fun _ => rfl).2 id
  have hfits := ((apply_ok h.applied).2 id).length_data_le (hc.length_data_le hcandidate)
  rw [h.load hmode huuid himage hs hsegment hid hv (by omega), getD_eq_getElem?_getD,
    getElem?_eq_getElem hi, Option.getD_some]

/-- **The pair.** Both symbols of a variable have addresses, and the pair holds that of the bytes
and their number. -/
theorem LaidOut.pair (h : LaidOut o u t placed) (hmode : o.isExternal = false)
    (hstands : StandsFor t name value id bytesId) (hreach : (t.get id).reachable = true) :
    ∃ v w, (placed.table.get id).value = some v ∧ (placed.table.get bytesId).value = some w ∧
      (placed.table.get id).data =
        ofNat 4 w ++ ofNat 4 (ofString value).length ∧
      (w ≤ 2 ^ 32 → w < 2 ^ 32) := by
  obtain ⟨hkeeps, happlied⟩ := apply_ok h.applied
  have hvalue := (hkeeps.read Symbol.value fun _ => rfl).2
  have hdata : (t.get id).data = _ := congrArg (·.2.2.1) hstands.pair
  obtain ⟨done, hdone, -⟩ := (happlied id).site (by rw [isSite, hreach, hstands.kind]; rfl)
  obtain ⟨⟨r, x⟩, rfl, hr⟩ :=
    map_eq_singleton_iff.mp (hdone.relocations.trans hstands.relocations)
  obtain rfl : r = .pending 0 4 .absolute (some bytesId) 0 := hr
  have hsettle := hdone.settled _ (mem_singleton_self _)
  obtain ⟨v, hv⟩ := base_of_settle hmode rfl hsettle
  obtain ⟨w, hw, hx⟩ := value_of_settle hmode rfl hsettle
  have hx : x.1 = .ofNat 64 w := hx.trans (BitVec.add_zero _)
  have hfits := checkFit_of_settle hmode rfl hsettle
  refine ⟨v, w, (hvalue id).trans hv, (hvalue bytesId).trans hw, ?_, fun hle => ?_⟩
  · have hbytes : ofNat 4 x.1.toNat = ofNat 4 w := by
      rw [ofNat_eq_ofWord, hx, narrow_ofNat, ofWord_ofNat]
    have hpatch : (placed.table.get id).data =
        patch (t.get id).data 0 (ofNat 4 x.1.toNat) := by
      rw [hdone.symbol]
      rfl
    rw [hpatch, hbytes, hdata, ← ofWord_ofNat (ofString value).length]
    exact patch_word w _
  · have htoNat : (BitVec.ofNat 64 w).toNat = w := by
      rw [BitVec.toNat_ofNat]
      omega
    rw [hx] at hfits
    exact htoNat ▸ toNat_lt_of_checkFit hfits (htoNat.symm ▸ hle)

theorem LaidOut.standsFor (h : LaidOut o u t placed) (hstands : StandsFor u name value id bytesId) :
    StandsFor t name value id bytesId := by
  obtain ⟨t₀, fills, hc⟩ := compute_ok h.sentinels h.computed
  have hbody {j : SymbolId} {kind : SymbolKind} {rest : Bytes × Nat × List (Relocation SymbolId)}
      (hj : (u.get j).body = (false, kind, rest)) (hkind : kind ≠ .bss ∧ kind ≠ .noPtrBss) :
      (t.get j).body = (false, kind, rest) := by
    have hspecial : (u.get j).special = false := congrArg (·.1) hj
    have hkind' : (u.get j).kind = kind := congrArg (·.2.1) hj
    rw [← hj]
    exact body_of_computed hc hspecial (hkind' ▸ hkind.1) (hkind' ▸ hkind.2)
  exact ⟨(hc.keeps.finds _ _ fun _ => rfl).trans hstands.found,
    (hc.keeps.finds _ _ fun _ => rfl).trans hstands.foundBytes, hbody hstands.pair (by decide),
    hbody hstands.bytes (by decide)⟩

/-- The bytes of a value that lie within no other symbol end where addresses do. -/
theorem bytes_within (hc : Computed u layout t t₀ fills) {w : Nat}
    (hcandidate : isCandidate (u.get bytesId) = true)
    (hbytes : (t.get bytesId).body = bytesBody value) (hw : (t.get bytesId).value = some w) :
    w + (ofString value).length ≤ 2 ^ 32 ∧ (ofString value).length < 2 ^ 32 := by
  have hkind : (t.get bytesId).kind = .readOnlyData := congrArg (·.2.1) hbytes
  have hsize : (t.get bytesId).size = (ofString value).length := congrArg (·.2.2.2.1) hbytes
  obtain ⟨e, he, -, v, hv, hstart, hstop⟩ :=
    hc.located hcandidate (by rw [hkind]; rfl) (by rw [hkind]; decide)
  cases hv.symm.trans hw
  have hholds := hc.arranged.holds e he
  have hend := hholds.stop_le
  have hlength := hholds.length_lt
  rw [Extent.stop] at hstop hend
  omega

/-- **String variables in memory.** Both symbols of a variable that was set on the command line have
addresses. At that of the pair, memory holds the address and the number of the bytes, and at that of
the bytes it holds the value, whatever the object files said of the two, except that they put them
within another symbol. -/
theorem variables_loaded (hmode : o.isExternal = false) (hprepare : prepare o objects = .ok placed)
    (huuid : uuid.length = 16) (himage : Link.image o placed uuid = .ok image)
    (hapart : o.stringVariables.Pairwise fun x y => Apart x.1 y.1)
    (hset : (name, value) ∈ o.stringVariables) :
    ∃ id bytesId v w, placed.table.find? name 0 = some id ∧
      placed.table.find? (name ++ ".str") 0 = some bytesId ∧
      (placed.table.get id).value = some v ∧ (placed.table.get bytesId).value = some w ∧
      ((placed.table.get id).outer = none → ∀ i < 8, Image.load image (v + i) =
        (Bytes.ofNat 4 w ++ Bytes.ofNat 4 (Bytes.ofString value).length)[i]?) ∧
      ((placed.table.get bytesId).outer = none →
        w < 2 ^ 32 ∧ (Bytes.ofString value).length < 2 ^ 32 ∧
        ∀ i < (Bytes.ofString value).length,
          Image.load image (w + i) = (Bytes.ofString value)[i]?) := by
  obtain ⟨kept, hkept, -⟩ := run_bind_eq_ok.mp hprepare
  obtain ⟨s, s', u, t, hstaged, happly⟩ := staged_of_prepare hkept hprepare
  obtain ⟨id, bytesId, hstands, hid, hbytesId⟩ := standsFor_of_collect hkept hapart hset
  obtain ⟨hstands, hid, hbytesId⟩ := hstaged.standsFor (collected hkept) hstands hid hbytesId
  have hlaid := hstaged.laidOut hkept happly
  obtain ⟨t₀, fills, hc⟩ := compute_ok hlaid.sentinels hlaid.computed
  have hlaidStands := hlaid.standsFor hstands
  obtain ⟨v, w, hv, hw, hpair, hfits⟩ := hlaid.pair hmode hlaidStands (hc.marks hid)
  have houter (j : SymbolId) : (placed.table.get j).outer = (u.get j).outer :=
    ((hlaid.keeps.map Symbol.outer).2 j).trans ((hc.keeps.map Symbol.outer).2 j)
  have hcandidate {j : SymbolId} (hreach : (u.get j).reachable = true)
      (hspecial : (u.get j).special = false) (hnone : (placed.table.get j).outer = none) :
      isCandidate (u.get j) = true := by
    rw [isCandidate, hreach, hspecial, ← houter, hnone]
    rfl
  have hbytes : (placed.table.get bytesId).data = Bytes.ofString value := by
    have happlied := (apply_ok hlaid.applied).2 bytesId
    rw [happlied.get_eq hlaidStands.relocations_bytes, hlaidStands.data_bytes]
  refine ⟨id, bytesId, v, w, (hlaid.keeps.finds _ _ fun _ => rfl).trans hlaidStands.found,
    (hlaid.keeps.finds _ _ fun _ => rfl).trans hlaidStands.foundBytes, hv, hw,
    fun hnone i hi => ?_, fun hnone => ?_⟩
  · rw [← hpair]
    refine hlaid.load_contents hmode huuid himage
      (hcandidate hid (congrArg (·.1) hstands.pair) hnone) (by rw [hlaidStands.kind]; rfl) ?_
      hv ?_
    · have hdata : (t.get id).data = _ := congrArg (·.2.2.1) hlaidStands.pair
      rw [hdata]
      exact List.append_ne_nil_of_left_ne_nil (List.ne_nil_of_length_pos (by simp)) _
    · simpa [hpair] using hi
  · have hcandidate := hcandidate hbytesId (congrArg (·.1) hstands.bytes) hnone
    have hvalue : (t.get bytesId).value = some w :=
      ((hlaid.keeps.map Symbol.value).2 bytesId).symm.trans hw
    obtain ⟨hstop, hlength⟩ := bytes_within hc hcandidate hlaidStands.bytes hvalue
    refine ⟨hfits (by omega), hlength, fun i hi => ?_⟩
    rw [← hbytes]
    refine hlaid.load_contents hmode huuid himage hcandidate
      (by rw [hlaidStands.kind_bytes]; rfl) ?_ hw (hbytes ▸ hi)
    rw [hlaidStands.data_bytes]
    exact List.ne_nil_of_length_pos (Nat.zero_lt_of_lt hi)

/-- Options that set one variable. -/
def settingOptions (name value : String) : Options where
  stripAll := true
  entry := .symbol "main"
  stringVariables := [(name, value)]

/-- A program that refers to a variable that it defines as zeros, and to bytes with the derived name
that it defines for each thread. -/
def defaultFile : Object where
  path := "a.toml"
  symbols :=
    [programCode (zeros 4) [.pending 0 4 .absolute (some "version") 0],
     { name := "version", kind := .bss, kind_ne_undefined := bss_ne_undefined, size := 64
       alignment := some ⟨4⟩ },
     threadData "version.str" 2 none]
  imports := []

/-- Both definitions are replaced. -/
theorem variables_loaded_sample :
    (settingOptions "version" "1.2").isExternal = false ∧ (Bytes.zeros 16).length = 16 ∧
    ((settingOptions "version" "1.2").stringVariables.Pairwise fun x y => Apart x.1 y.1) ∧
    ("version", "1.2") ∈ (settingOptions "version" "1.2").stringVariables ∧
    ∃ placed image, prepare (settingOptions "version" "1.2") [defaultFile] = .ok placed ∧
      Link.image (settingOptions "version" "1.2") placed (Bytes.zeros 16) = .ok image ∧
      (placed.table.get 20).value = some 73856 ∧ (placed.table.get 21).value = some 69632 ∧
      (∀ i < 8, Image.load image (73856 + i) = [0, 16, 1, 0, 3, 0, 0, 0][i]?) ∧
      ∀ i < 3, Image.load image (69632 + i) = [49, 46, 50][i]? := by
  obtain ⟨placed, hprepare, hplan, hfind, hfindBytes, haddress, hbytes, houter, houterBytes⟩ :
      ∃ placed, prepare (settingOptions "version" "1.2") [defaultFile] = .ok placed ∧
        (∃ plan, Image.plan placed.table placed.layout (settingOptions "version" "1.2")
          placed.relocations = .ok plan) ∧
        placed.table.find? "version" 0 = some 20 ∧
        placed.table.find? ("version" ++ ".str") 0 = some 21 ∧
        (placed.table.get 20).value = some 73856 ∧ (placed.table.get 21).value = some 69632 ∧
        (placed.table.get 20).outer = none ∧ (placed.table.get 21).outer = none := by
    decide +kernel
  have huuid := Bytes.length_zeros 16
  obtain ⟨image, himage⟩ := exists_image hprepare hplan
  have hapart := List.pairwise_singleton (fun x y : String × String => Apart x.1 y.1)
    ("version", "1.2")
  have hset := List.mem_singleton_self ("version", "1.2")
  obtain ⟨id, bytesId, v, w, hid, hbytesId, hv, hw, hpair, hvalue⟩ :=
    variables_loaded rfl hprepare huuid himage hapart hset
  cases hfind.symm.trans hid
  cases hfindBytes.symm.trans hbytesId
  cases haddress.symm.trans hv
  cases hbytes.symm.trans hw
  have hstring : Bytes.ofString "1.2" = [49, 46, 50] := by decide +kernel
  refine ⟨rfl, huuid, hapart, hset, placed, image, hprepare, himage, haddress, hbytes, ?_, ?_⟩
  · have hpair := hpair houter
    rw [hstring] at hpair
    exact hpair
  · obtain ⟨-, -, hvalue⟩ := hvalue houterBytes
    rw [hstring] at hvalue
    exact hvalue

/-- **Variables within symbols.** A variable that an object file put within another symbol does not
take effect: memory holds that symbol where its length should be. -/
theorem variable_lost :
    ∃ placed image, prepare (settingOptions "part" "x") partSample = .ok placed ∧
      Link.image (settingOptions "part" "x") placed (Bytes.zeros 16) = .ok image ∧
      placed.table.find? "part" 0 = some 20 ∧ (placed.table.get 20).value = some 68612 ∧
      (placed.table.get 20).outer = some ⟨19, 4⟩ ∧
      Image.load image (68612 + 4) = some 0 ∧ ∀ w,
        (Bytes.ofNat 4 w ++ Bytes.ofNat 4 (Bytes.ofString "x").length)[4]? = some 1 := by
  obtain ⟨placed, hprepare, hplan, hfind, haddress, houter, ⟨s, hs, hsegment, hmem⟩, hmain, hsize,
      hdata⟩ : ∃ placed, prepare (settingOptions "part" "x") partSample = .ok placed ∧
        (∃ plan, Image.plan placed.table placed.layout (settingOptions "part" "x")
          placed.relocations = .ok plan) ∧
        placed.table.find? "part" 0 = some 20 ∧ (placed.table.get 20).value = some 68612 ∧
        (placed.table.get 20).outer = some ⟨19, 4⟩ ∧
        (∃ s ∈ placed.layout.sections, s.segment ≠ .tls ∧ 19 ∈ s.symbols) ∧
        (placed.table.get 19).value = some 68608 ∧ (placed.table.get 19).size = 12 ∧
        (placed.table.get 19).data = Bytes.zeros 12 := by
    decide +kernel
  obtain ⟨image, himage⟩ := exists_image hprepare hplan
  obtain ⟨u, t, hlaid⟩ := laidOut_of_prepare hprepare
  have hload := hlaid.load (i := 8) rfl (Bytes.length_zeros 16) himage hs hsegment hmem hmain
    (by rw [hsize]; decide)
  rw [hdata] at hload
  have hstring : Bytes.ofString "x" = [120] := by decide +kernel
  refine ⟨placed, image, hprepare, himage, hfind, haddress, houter, hload, fun w => ?_⟩
  rw [hstring, List.getElem?_append_right (by simp), Bytes.length_ofNat]
  rfl

end Link

end ArmLink
