import ArmLink.Proofs.Bytes.Writes
import ArmLink.Proofs.Resolve

/-!
# One resolution for each site

Application changes the table in which later relocations are resolved, but nothing that they read.
So it comes to resolving each relocation once, in the table as it was. Done a second time it finds
other relocations, which have become constants or were left to the host linker, but these amount to
the same and are written over the same bytes.
-/

namespace ArmLink

open SymbolTable List
open Relocation (Kind Outcome)

/-- The number that is written. -/
def Resolved.word : Resolved → Word64
  | .value v => v
  | .deferred _ _ addend => addend

/-- What has become of a relocation that amounts to this. -/
def Resolved.outcome : Resolved → Outcome SymbolId
  | .value v => .constant v
  | .deferred kind target addend => .deferred kind target addend

/-- What a relocation that amounts to this leaves to the host linker. -/
def Resolved.host? (owner : SymbolId) (r : Relocation SymbolId) : Resolved → Option HostRelocation
  | .value _ => none
  | .deferred kind target addend =>
    (Arm.Machine.hostType kind r.size (addend.setWidth 32)).toOption.map fun type =>
      ⟨owner, r.offset, type, target⟩

namespace Resolve

variable {t t' : SymbolTable} {c : Context} {owner id : SymbolId} {r : Relocation SymbolId}
  {s s' : Symbol} {done : List (Relocation SymbolId × Settlement)} {hosts : List HostRelocation}
  {l : Layout} {external : Bool} {x : Resolved} {y : Settlement}
  {results : List (Relocation SymbolId × Resolved)}

/-! ## Results of application -/

theorem Becomes.unique (h : Becomes c t id s) (h' : Becomes c t id s') : s = s' := by
  cases hsite : isSite (t.get id) with
  | true => rw [(h.1 hsite).symbol, (h'.1 hsite).symbol]
  | false => rw [h.2 hsite, h'.2 hsite]

/-- Application has a result if and only if that is what the relocations amount to in the table as
it was. -/
theorem apply_eq_ok_iff : apply t l external = .ok (t', hosts) ↔ t'.size = t.size ∧
      (∀ id, Becomes ⟨l, external, gotAddress t⟩ t id (t'.get id)) ∧
      hosts = t.ids.flatMap (hostsOf ⟨l, external, gotAddress t⟩ t) := by
  constructor
  · intro h
    obtain ⟨hkeeps, hall, hhosts⟩ := (gives_apply t l external).of_ok h
    exact ⟨hkeeps.1, hall, hhosts⟩
  · rintro ⟨hsize, hall, rfl⟩
    cases happly : apply t l external with
    | error failure =>
      obtain ⟨id, r, hsite, hr, hfails⟩ := apply_error happly
      have happlied := (hall id).1 hsite
      obtain ⟨x, hx, rfl⟩ := mem_map.mp (happlied.relocations.symm ▸ hr)
      cases (happlied.settled x hx).symm.trans hfails
    | ok result =>
      obtain ⟨hkeeps, hall', hhosts⟩ := (gives_apply t l external).of_ok happly
      have htable : result.1 = t' :=
        eq_of_get (hkeeps.1.trans hsize.symm) fun id _ => (hall' id).unique (hall id)
      exact congrArg Except.ok (Prod.ext htable hhosts)

/-- The low bytes of a number, written where a relocation stands. -/
def siteWrite (r : Relocation SymbolId) (v : Word64) : Bytes.Write :=
  ⟨r.offset, .ofNat r.size v.toNat⟩

theorem stop_siteWrite (r : Relocation SymbolId) (v : Word64) : (siteWrite r v).stop = r.stop :=
  congrArg (r.offset + ·) (Bytes.length_ofNat ..)

theorem data_patched : (patched s done).data = (done.map fun x => siteWrite x.1 x.2.1).foldl
      (fun data w => data.patch w.offset w.bytes) s.data := by
  rw [foldl_map]
  rfl

theorem eq_of_bare (hbare : bare s = bare s') (hdata : s.data = s'.data)
    (hrelocations : s.relocations = s'.relocations) : s = s' := by
  have hs (s : Symbol) : s = { bare s with data := s.data, relocations := s.relocations } := rfl
  rw [hs s, hs s', hbare, hdata, hrelocations]

/-! ## Sites -/

/-- A relocation of a symbol amounts to `x`, and there is an ELF type for it if it is left to the
host linker. -/
structure ResolvesTo (c : Context) (t : SymbolTable) (owner : SymbolId) (r : Relocation SymbolId)
    (x : Resolved) : Prop where
  resolve : resolve c t owner r = .ok x
  hostType : ∀ kind target addend, x = .deferred kind target addend →
    ∃ type, Arm.Machine.hostType kind r.size (addend.setWidth 32) = .ok type

/-- A relocation of a symbol amounts to nothing, or it is left to the host linker and there is no
ELF type for it. -/
def Fails (c : Context) (t : SymbolTable) (owner : SymbolId) (r : Relocation SymbolId) : Prop :=
  (∃ e, resolve c t owner r = .error e) ∨
    ∃ kind target addend e, resolve c t owner r = .ok (.deferred kind target addend) ∧
      Arm.Machine.hostType kind r.size (addend.setWidth 32) = .error e

theorem ResolvesTo.not_fails (h : ResolvesTo c t owner r x) : ¬ Fails c t owner r := by
  rintro (⟨e, he⟩ | ⟨kind, target, addend, e, hx, he⟩)
  · cases h.resolve.symm.trans he
  · obtain ⟨type, htype⟩ := h.hostType kind target addend (Except.ok.inj (h.resolve.symm.trans hx))
    cases htype.symm.trans he

/-- What a relocation that amounts to `x` leaves behind. -/
def settlement (owner : SymbolId) (r : Relocation SymbolId) (x : Resolved) : Settlement :=
  (x.word, x.outcome, x.host? owner r)

theorem settle_eq_ok :
    settle c t owner r = .ok y ↔ ∃ x, ResolvesTo c t owner r x ∧ settlement owner r x = y := by
  constructor
  · intro h
    obtain ⟨x, hresolve, hrecord⟩ := bind_eq_ok.mp h
    cases x with
    | value v =>
      cases hrecord
      exact ⟨_, ⟨hresolve, nofun⟩, rfl⟩
    | deferred kind target addend =>
      simp only [record] at hrecord
      split at hrecord
      · rename_i type htype
        cases hrecord
        refine ⟨_, ⟨hresolve, ?_⟩, ?_⟩
        · rintro _ _ _ ⟨⟩
          exact ⟨type, htype⟩
        · simp only [settlement, Resolved.host?, htype]
          rfl
      · cases hrecord
  · rintro ⟨x, ⟨hresolve, htype⟩, rfl⟩
    refine bind_eq_ok.mpr ⟨x, hresolve, ?_⟩
    cases x with
    | value v => rfl
    | deferred kind target addend =>
      obtain ⟨type, htype⟩ := htype kind target addend rfl
      simp only [record, settlement, Resolved.host?, htype]
      rfl

/-- The symbol `s` is the owner once each of its relocations was resolved in `t`: `results` are the
relocations with what they amount to. Outcomes are noted; the data, which grows to the end of the
furthest relocation, has the low bytes of the numbers written into it one after the other; and
nothing else is changed. -/
structure Rewritten (c : Context) (t : SymbolTable) (owner : SymbolId) (s : Symbol)
    (results : List (Relocation SymbolId × Resolved)) : Prop where
  sites : results.map (·.1) = (t.get owner).relocations
  resolved : ∀ p ∈ results, ResolvesTo c t owner p.1 p.2
  noted : s.relocations = results.map fun p => { p.1 with outcome := p.2.outcome }
  written : s.data = (results.map fun p => siteWrite p.1 p.2.word).foldl Bytes.overwrite
    ((t.get owner).data.extend (Bytes.furthest ((t.get owner).relocations.map (·.stop))))
  bounded : s.data.length ≤ max (t.get owner).data.length (t.get owner).size
  others : bare s = bare (t.get owner)

theorem exists_results (h : ∀ y ∈ done, settle c t owner y.1 = .ok y.2) :
    ∃ results : List (Relocation SymbolId × Resolved),
      (∀ p ∈ results, ResolvesTo c t owner p.1 p.2) ∧
      results.map (fun p => (p.1, settlement owner p.1 p.2)) = done := by
  induction done with
  | nil => exact ⟨[], nofun, rfl⟩
  | cons y done ih =>
    obtain ⟨hy, hdone⟩ := forall_mem_cons.mp h
    obtain ⟨x, hx, hsettlement⟩ := settle_eq_ok.mp hy
    obtain ⟨results, hresults, rfl⟩ := ih hdone
    refine ⟨(y.1, x) :: results, forall_mem_cons.mpr ⟨hx, hresults⟩, ?_⟩
    rw [map_cons, hsettlement]

/-- The data of a symbol can grow first and be written in place then. -/
theorem data_patched_results :
    (patched s (results.map fun p => (p.1, settlement owner p.1 p.2))).data =
      (results.map fun p => siteWrite p.1 p.2.word).foldl Bytes.overwrite
        (s.data.extend (Bytes.furthest ((results.map (·.1)).map (·.stop)))) := by
  have hstops : (results.map (·.1)).map (·.stop) =
      (results.map fun p => siteWrite p.1 p.2.word).map (·.stop) := by
    rw [map_map, map_map]
    exact map_congr_left fun p _ => (stop_siteWrite p.1 p.2.word).symm
  rw [hstops, ← Bytes.foldl_patch, data_patched, map_map]
  rfl

theorem rewritten_of_applied (h : Applied c t owner s done) :
    ∃ results, Rewritten c t owner s results := by
  obtain ⟨results, hresults, rfl⟩ := exists_results h.settled
  have hsites : results.map (·.1) = (t.get owner).relocations := by
    rw [← h.relocations, map_map]
    rfl
  refine ⟨results, hsites, hresults, ?_, ?_, h.length_data_le, ?_⟩
  · rw [h.relocations_eq, map_map]
    rfl
  · rw [h.symbol, data_patched_results, hsites]
  · rw [h.symbol, bare_patched]

theorem applied_of_rewritten (h : Rewritten c t owner s results) :
    Applied c t owner s (results.map fun p => (p.1, settlement owner p.1 p.2)) := by
  have hsites : (results.map fun p => (p.1, settlement owner p.1 p.2)).map (·.1) =
      (t.get owner).relocations := by
    rw [map_map, ← h.sites]
    rfl
  have hsettled : ∀ y ∈ results.map fun p => (p.1, settlement owner p.1 p.2),
      settle c t owner y.1 = .ok y.2 := by
    intro y hy
    obtain ⟨p, hp, rfl⟩ := mem_map.mp hy
    exact settle_eq_ok.mpr ⟨p.2, h.resolved p hp, rfl⟩
  refine ⟨hsites, hsettled, eq_of_bare ?_ ?_ ?_⟩
  · rw [h.others, bare_patched]
  · rw [h.written, data_patched_results, h.sites]
  · rw [h.noted, (⟨hsites, hsettled, rfl⟩ : Applied c t owner _ _).relocations_eq, map_map]
    rfl

/-! ## All sites -/

/-- What a relocation of a symbol leaves to the host linker. -/
def hostOf? (c : Context) (t : SymbolTable) (owner : SymbolId) (r : Relocation SymbolId) :
    Option HostRelocation :=
  (resolve c t owner r).toOption.bind (·.host? owner r)

theorem hostOf?_eq : hostOf? c t owner r = (settle c t owner r).toOption.bind (·.2.2) := by
  rw [hostOf?, settle]
  cases resolve c t owner r with
  | error e => rfl
  | ok x =>
    show x.host? owner r = (record owner (t.get owner).text r x).toOption.bind (·.2.2)
    cases x with
    | value v => rfl
    | deferred kind target addend =>
      simp only [record, Resolved.host?]
      cases Arm.Machine.hostType kind r.size (addend.setWidth 32) with
      | error e => rfl
      | ok type => rfl

theorem hostsOf_eq (c : Context) (t : SymbolTable) (id : SymbolId) : hostsOf c t id =
      if isSite (t.get id) then (t.get id).relocations.filterMap (hostOf? c t id) else [] := by
  rw [hostsOf, settlements, filterMap_filterMap]
  congr 2
  funext r
  rw [hostOf?_eq]
  cases (settle c t id r).toOption with
  | none => rfl
  | some y => rfl

/-- The table `t'` and what is left to the host linker come of resolving each relocation of each
symbol that has a place once in `t`, in the order of the symbols and of their relocations. -/
structure AppliedOnce (c : Context) (t t' : SymbolTable) (hosts : List HostRelocation) : Prop where
  size : t'.size = t.size
  site : ∀ id, isSite (t.get id) = true → ∃ results, Rewritten c t id (t'.get id) results
  other : ∀ id, isSite (t.get id) = false → t'.get id = t.get id
  hosts : hosts = t.ids.flatMap fun id =>
    if isSite (t.get id) then (t.get id).relocations.filterMap (hostOf? c t id) else []

/-- **Applied once.** Application succeeds with exactly the table and the relocations for the host
linker that come of resolving each relocation once in the table as it was. If one of them amounts to
nothing there, or cannot be passed on, application fails. -/
theorem apply_once (t : SymbolTable) (l : Layout) (external : Bool) :
    (∀ t' hosts, apply t l external = .ok (t', hosts) ↔
      AppliedOnce ⟨l, external, gotAddress t⟩ t t' hosts) ∧
    ∀ id r, isSite (t.get id) = true → r ∈ (t.get id).relocations →
      Fails ⟨l, external, gotAddress t⟩ t id r →
      ∃ failure, apply t l external = .error failure := by
  constructor
  · intro t' hosts
    rw [apply_eq_ok_iff, funext (hostsOf_eq _ t)]
    constructor
    · rintro ⟨hsize, hall, hhosts⟩
      refine ⟨hsize, fun id hsite => ?_, fun id => (hall id).2, hhosts⟩
      exact rewritten_of_applied ((hall id).1 hsite)
    · intro h
      refine ⟨h.size, fun id => ⟨fun hsite => ?_, h.other id⟩, h.hosts⟩
      obtain ⟨results, hresults⟩ := h.site id hsite
      have happlied := applied_of_rewritten hresults
      exact happlied.eq_settlements ▸ happlied
  · intro id r hsite hr hfails
    cases happly : apply t l external with
    | error failure => exact ⟨failure, rfl⟩
    | ok result =>
      obtain ⟨-, hall, -⟩ := apply_eq_ok_iff.mp happly
      have happlied := (hall id).1 hsite
      obtain ⟨y, hy, rfl⟩ := List.mem_map.mp (happlied.relocations.symm ▸ hr)
      obtain ⟨x, hx, -⟩ := settle_eq_ok.mp (happlied.settled y hy)
      exact absurd hfails hx.not_fails

/-- Two symbols that refer to each other, if the target of the first relocation is 20. The second
relocation overlaps the first, and the data of both symbols ends before their relocations do. -/
def crossedSample (target : SymbolId) : SymbolTable :=
  ⟨SymbolTable.initial.symbols ++ (
    [{ name := "main", version := 0, kind := .text, size := 8, value := some 4096,
       sectionId := some 0, data := [1, 2], reachable := true
       relocations :=
         [.pending 0 4 .absolute (some target) 5, .pending 2 4 .pcRelative (some 19) 0,
          .pending 6 2 .size (some 20) 1] },
     { name := "table", version := 0, kind := .data, size := 4, value := some 8192,
       sectionId := some 1, reachable := true
       relocations := [.pending 0 4 .absolute (some 19) 0] }] : List Symbol)⟩

theorem apply_once_sample : (∃ t' hosts, apply (crossedSample 20) default true = .ok (t', hosts) ∧
      AppliedOnce ⟨default, true, gotAddress (crossedSample 20)⟩ (crossedSample 20) t' hosts ∧
      (t'.get 19).data = [5, 0, 0xfa, 0xff, 0xff, 0xff, 5, 0] ∧ (t'.get 20).data = [0, 0, 0, 0] ∧
      hosts = [⟨19, 0, Elf.RelocationType.abs32, 20⟩, ⟨20, 0, Elf.RelocationType.abs32, 19⟩]) ∧
    isSite ((crossedSample 21).get 19) = true ∧
    Fails ⟨default, true, gotAddress (crossedSample 21)⟩ (crossedSample 21) 19
      (.pending 0 4 .absolute (some 21) 5) ∧
    ∃ failure, apply (crossedSample 21) default true = .error failure := by
  obtain ⟨t', hosts, happly, hdata⟩ :
      ∃ t' hosts, apply (crossedSample 20) default true = .ok (t', hosts) ∧
        (t'.get 19).data = [5, 0, 0xfa, 0xff, 0xff, 0xff, 5, 0] ∧ (t'.get 20).data = [0, 0, 0, 0] ∧
        hosts = [⟨19, 0, Elf.RelocationType.abs32, 20⟩, ⟨20, 0, Elf.RelocationType.abs32, 19⟩] := by
    decide +kernel
  obtain ⟨hsite, hr, hresolve⟩ : isSite ((crossedSample 21).get 19) = true ∧
      .pending 0 4 .absolute (some 21) 5 ∈ ((crossedSample 21).get 19).relocations ∧
      resolve ⟨default, true, gotAddress (crossedSample 21)⟩ (crossedSample 21) 19
        (.pending 0 4 .absolute (some 21) 5) =
          .error (.undefined ⟨.absolute, "``", "`main`", 0⟩) := by
    decide +kernel
  have hfails : Fails _ (crossedSample 21) 19 _ := .inl ⟨_, hresolve⟩
  exact ⟨⟨t', hosts, happly, ((apply_once _ _ _).1 t' hosts).mp happly, hdata⟩, hsite, hfails,
    (apply_once _ _ _).2 19 _ hsite hr hfails⟩

/-! ## A second time -/

/-- A relocation that has become a constant or was left to the host linker leaves behind what it
left before. -/
theorem settle_again (hkeeps : Keeps bare t t') (h : settle c t owner r = .ok y) :
    settle c t' owner { r with outcome := y.2.1 } = .ok y := by
  have hstop : ¬ (t.get owner).size < r.stop := Nat.not_lt.mpr (stop_le_of_settle h)
  obtain ⟨x, hx, rfl⟩ := settle_eq_ok.mp h
  have hresolve : resolve c t owner { r with outcome := x.outcome } = .ok x := by
    cases x with
    | value v => exact if_neg hstop
    | deferred kind target addend => exact if_neg hstop
  rw [settle_congr hkeeps]
  exact settle_eq_ok.mpr ⟨x, ⟨hresolve, hx.hostType⟩, rfl⟩

/-- A relocation whose outcome was noted, with what it leaves behind. -/
def noted (y : Relocation SymbolId × Settlement) : Relocation SymbolId × Settlement :=
  ({ y.1 with outcome := y.2.2.1 }, y.2)

/-- Relocations that were applied leave the same behind and change nothing. -/
theorem Applied.again (hkeeps : Keeps bare t t') (h : Applied c t owner (t'.get owner) done) :
    Applied c t' owner (t'.get owner) (done.map noted) := by
  have hrelocations : (done.map noted).map (·.1) = (t'.get owner).relocations := by
    rw [map_map, h.relocations_eq]
    rfl
  have hsettled : ∀ y ∈ done.map noted, settle c t' owner y.1 = .ok y.2 := by
    intro _ hmem
    obtain ⟨y, hy, rfl⟩ := mem_map.mp hmem
    exact settle_again hkeeps (h.settled y hy)
  refine ⟨hrelocations, hsettled, eq_of_bare (bare_patched ..).symm ?_ ?_⟩
  · -- the same bytes are written at the same places
    have hwrites : (done.map noted).map (fun y => siteWrite y.1 y.2.1) =
        done.map fun y => siteWrite y.1 y.2.1 := by
      rw [map_map]
      rfl
    rw [data_patched, hwrites, h.symbol, data_patched, Bytes.foldl_patch_again]
  · rw [(⟨hrelocations, hsettled, rfl⟩ : Applied c t' owner _ _).relocations_eq, map_map,
      h.relocations_eq]
    rfl

/-- **Applied again.** Applied relocations can be applied again, which leaves the same to the host
linker and changes nothing, whether they overlap or not. -/
theorem apply_again (h : apply t l external = .ok (t', hosts)) :
    apply t' l external = .ok (t', hosts) := by
  obtain ⟨hkeeps, -⟩ := apply_ok h
  obtain ⟨-, hall, rfl⟩ := apply_eq_ok_iff.mp h
  have hsite (id : SymbolId) : isSite (t'.get id) = isSite (t.get id) := (hkeeps.map isSite).2 id
  have happlied (id : SymbolId) (hid : isSite (t.get id) = true) :=
    ((hall id).1 hid).again hkeeps
  rw [apply_eq_ok_iff, gotAddress_congr hkeeps]
  refine ⟨rfl, fun id => ⟨fun hid => ?_, fun _ => rfl⟩, ?_⟩
  · have happlied := happlied id (hsite id ▸ hid)
    exact happlied.eq_settlements ▸ happlied
  · rw [hkeeps.ids]
    refine congrArg (List.flatMap · t.ids) (funext fun id => ?_)
    rw [hostsOf, hostsOf, hsite]
    split
    · rw [← (happlied id ‹_›).eq_settlements, List.filterMap_map]
      rfl
    · rfl

theorem apply_again_sample : ∃ t' hosts, apply (crossedSample 20) default true = .ok (t', hosts) ∧
    Overlap (.pending 0 4 .absolute (some 20) 5) (.pending 2 4 .pcRelative (some 19) 0) ∧
    (t'.get 19).relocations = [⟨0, 4, .deferred .absolute 20 5⟩, ⟨2, 4, .constant (-6)⟩,
      ⟨6, 2, .constant 5⟩] ∧
    hosts.length = 2 ∧ apply t' default true = .ok (t', hosts) := by
  obtain ⟨t', hosts, happly, hrelocations, hlength⟩ :
      ∃ t' hosts, apply (crossedSample 20) default true = .ok (t', hosts) ∧
        (t'.get 19).relocations = [⟨0, 4, .deferred .absolute 20 5⟩, ⟨2, 4, .constant (-6)⟩,
          ⟨6, 2, .constant 5⟩] ∧ hosts.length = 2 := by
    decide +kernel
  exact ⟨t', hosts, happly, by decide, hrelocations, hlength, apply_again happly⟩

end Resolve

end ArmLink
