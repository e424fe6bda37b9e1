import ArmLink.Options.Parse
import ArmLink.Proofs.Except

/-!
# Spellings of long options

A long option takes one or two dashes, and its value behind an equals sign or as the next argument.
How it is spelled makes no difference, whatever the value is and wherever the option stands.
-/

namespace ArmLink

open List

variable {name : String} {setting : Setting}

namespace Argument

/-- The ways to give a long option a value. -/
def spellings (name value : String) : List (List String) :=
  [["--" ++ name, value], ["-" ++ name, value], ["--" ++ (name ++ "=" ++ value)],
   ["-" ++ (name ++ "=" ++ value)]]

/-- A text that is no short option with a dash before it, and is read as it is behind one or two. -/
structure IsLong (text : String) : Prop where
  length : 2 ≤ text.length
  head : text.toList.head? ≠ some '-'

theorem IsLong.ne_nil {text : String} (h : IsLong text) : text.toList ≠ [] := by
  intro hnil
  have hlength := h.length
  rw [← String.length_toList, hnil] at hlength
  contradiction

theorem IsLong.append (h : IsLong name) (rest : String) : IsLong (name ++ rest) := by
  have hlength := h.length
  refine ⟨?_, ?_⟩
  · rw [String.length_append]
    omega
  · rw [String.toList_append, head?_append_of_ne_nil _ h.ne_nil]
    exact h.head

section

variable {text dashes : String} (h : IsLong text) (hdashes : dashes = "-" ∨ dashes = "--")
include h hdashes

theorem IsLong.longName? : longName? (dashes ++ text) = some text := by
  obtain ⟨c, cs, hlist⟩ := exists_cons_of_ne_nil h.ne_nil
  have hc : c ≠ '-' := fun heq => h.head (by rw [hlist, heq]; rfl)
  have htext : String.ofList (c :: cs) = text := by rw [← hlist, String.ofList_toList]
  unfold Argument.longName?
  rcases hdashes with rfl | rfl
  · have hdash : ("-" ++ text).toList = '-' :: c :: cs := by
      rw [String.toList_append, hlist]
      rfl
    rw [hdash]
    split
    · rename_i heq
      exact absurd (cons.inj (cons.inj heq).2).1 hc
    · rename_i heq
      rw [← (cons.inj heq).2, htext]
    · rename_i hnone
      exact absurd rfl (hnone (c :: cs))
  · have hdash : ("--" ++ text).toList = '-' :: '-' :: c :: cs := by
      rw [String.toList_append, hlist]
      rfl
    rw [hdash]
    exact congrArg some htext

theorem IsLong.lookup_eq_none {α : Type} {options : List (String × α)}
    (hoptions : ∀ e ∈ options, e.1.length = 2) : options.lookup (dashes ++ text) = none := by
  rw [lookup_eq_none_iff]
  intro e he
  have hlength := h.length
  have hshort := hoptions e he
  rw [bne_iff_ne]
  rintro heq
  rw [← heq, String.length_append] at hshort
  have hlong : 0 < dashes.length := by
    rcases hdashes with rfl | rfl <;> decide
  omega

theorem IsLong.classify {found : Argument} (hfound : classifyLong? text = some found) :
    classify (dashes ++ text) = found := by
  have hsettings : shortSettings.lookup (dashes ++ text) = none :=
    h.lookup_eq_none hdashes (by decide)
  have hflags : shortFlags.lookup (dashes ++ text) = none :=
    h.lookup_eq_none hdashes (by decide)
  unfold Argument.classify
  rw [hsettings, hflags, h.longName? hdashes, Option.bind_some, hfound]
  rfl

end

theorem splitEquals?_eq (h : '=' ∉ name.toList) (value : String) :
    splitEquals? (name ++ "=" ++ value) = some (name, value) := by
  have hname : ∀ c ∈ name.toList, (decide (c ≠ '=')) = true := by
    rintro c hc
    exact decide_eq_true fun heq => h (heq ▸ hc)
  have hlist : (name ++ "=" ++ value).toList = name.toList ++ '=' :: value.toList := by
    simp
  unfold splitEquals?
  rw [hlist, dropWhile_append_of_pos hname, takeWhile_append_of_pos hname]
  simp

/-- The long options that may take their value from the next argument also take it behind an equals
sign, and none of them looks like anything else. -/
theorem longSettings_spec : ∀ e ∈ longSettings,
    (2 ≤ e.1.length ∧ e.1.toList.head? ≠ some '-') ∧ '=' ∉ e.1.toList ∧
      classifyLong? e.1 = some (takes e.2) ∧ longAssignments.lookup e.1 = some e.2 := by
  decide

theorem lookup_assignment {α : Type} {options : List (String × α)}
    (hoptions : ∀ e ∈ options, '=' ∉ e.1.toList) (name value : String) :
    options.lookup (name ++ "=" ++ value) = none := by
  rw [lookup_eq_none_iff]
  intro e he
  rw [bne_iff_ne]
  intro heq
  refine hoptions e he (heq ▸ ?_)
  simp

theorem classifyLong?_assignment (h : (name, setting) ∈ longSettings) (value : String) :
    classifyLong? (name ++ "=" ++ value) = some (sets setting value) := by
  obtain ⟨-, hequals, -, hlookup⟩ := longSettings_spec _ h
  have hsettings : longSettings.lookup (name ++ "=" ++ value) = none :=
    lookup_assignment (by decide) name value
  have hflags : longFlags.lookup (name ++ "=" ++ value) = none :=
    lookup_assignment (by decide) name value
  unfold classifyLong?
  rw [hsettings, hflags, splitEquals?_eq hequals]
  simp [hlookup]

end Argument

namespace Draft

/-- Whether the last argument is read as an option that still waits for its value. -/
def awaitsValue : List String → Bool
  | [] => false
  | argument :: rest =>
    match Argument.classify argument with
    | .takes _ =>
      match rest with
      | _ :: rest => awaitsValue rest
      | [] => true
    -- what follows is not read
    | .version | .help => false
    | _ => awaitsValue rest

/-- Arguments that mean the same mean the same behind others. -/
theorem follow_append_congr {pre : List String} (hpre : awaitsValue pre = false)
    {args args' : List String} (h : ∀ d : Draft, d.follow args = d.follow args') (d : Draft) :
    d.follow (pre ++ args) = d.follow (pre ++ args') := by
  fun_induction awaitsValue pre generalizing d with
  | case1 => exact h d
  | case2 argument setting hclass value rest ih =>
    simp only [cons_append, follow, hclass]
    exact bind_congr fun d' => ih hpre d'
  | case3 argument setting hclass => cases hpre
  | case4 argument rest hclass => simp only [cons_append, follow, hclass]
  | case5 argument rest hclass => simp only [cons_append, follow, hclass]
  | case6 argument rest htakes hversion hhelp ih =>
    simp only [cons_append, follow]
    cases hclass : Argument.classify argument with
    | takes setting => exact absurd hclass (htakes setting)
    | sets setting value => exact bind_congr fun d' => ih hpre d'
    | flag flag => exact ih hpre _
    | version => exact absurd hclass hversion
    | help => exact absurd hclass hhelp
    | unrecognised => exact ih hpre _
    | input => exact ih hpre _

open Argument in
/-- A spelling of an option does what the option does. -/
theorem follow_spelling (h : (name, setting) ∈ longSettings) {value : String}
    {spelling : List String} (hspelling : spelling ∈ spellings name value) (d : Draft)
    (post : List String) :
    d.follow (spelling ++ post) = setting.apply value d >>= (follow · post) := by
  obtain ⟨⟨hlength, hhead⟩, -, htakes, -⟩ := longSettings_spec _ h
  have hname : IsLong name := ⟨hlength, hhead⟩
  have hassignment : IsLong (name ++ "=" ++ value) := (hname.append _).append _
  have hsets := classifyLong?_assignment h value
  simp only [spellings, mem_cons, not_mem_nil, or_false] at hspelling
  rcases hspelling with rfl | rfl | rfl | rfl
  · simp only [cons_append, nil_append, follow, hname.classify (.inr rfl) htakes]
  · simp only [cons_append, nil_append, follow, hname.classify (.inl rfl) htakes]
  · simp only [cons_append, nil_append, follow, hassignment.classify (.inr rfl) hsets]
  · simp only [cons_append, nil_append, follow, hassignment.classify (.inl rfl) hsets]

end Draft

/-- **Spellings of long options.** Each spelling of a long option with a value does what the option
does, whatever the value looks like. So a command line asks for the same in each of them, unless the
option itself is taken for the value of the one before it. -/
theorem Options.spellings_agree (hname : (name, setting) ∈ [("entry", .entry), ("rpath", .runPath),
      ("dynamic-linker", .dynamicLinker), ("linkmode", .linkMode)])
    {pre : List String} (hpre : Draft.awaitsValue pre = false) (value : String)
    (post : List String) : (∀ spelling ∈ Argument.spellings name value, ∀ d : Draft,
      d.follow (spelling ++ post) = setting.apply value d >>= (Draft.follow · post)) ∧
    ∀ spelling ∈ Argument.spellings name value, ∀ other ∈ Argument.spellings name value,
      Options.parse (pre ++ (spelling ++ post)) = Options.parse (pre ++ (other ++ post)) := by
  have hfollow : ∀ spelling ∈ Argument.spellings name value, ∀ d : Draft,
      d.follow (spelling ++ post) = setting.apply value d >>= (Draft.follow · post) :=
    fun spelling hspelling d => Draft.follow_spelling hname hspelling d post
  refine ⟨hfollow, fun spelling hspelling other hother => ?_⟩
  refine Draft.follow_append_congr hpre (fun d => ?_) {}
  rw [hfollow spelling hspelling, hfollow other hother]

/-- A value that looks like a question for the version, behind an option with its value. -/
theorem Options.spellings_agree_sample : Draft.awaitsValue ["-o", "-e"] = false ∧
      Options.parse ["-o", "-e", "-rpath=-v", "-s"] =
        .ok (.link { output := "-e", runPaths := ["-v"], stripAll := true }) ∧
      Options.parse ["-o", "-e", "--rpath", "-v", "-s"] =
        .ok (.link { output := "-e", runPaths := ["-v"], stripAll := true }) := by
  have hpre : Draft.awaitsValue ["-o", "-e"] = false := by decide
  have hparse : Options.parse ["-o", "-e", "-rpath=-v", "-s"] =
      .ok (.link { output := "-e", runPaths := ["-v"], stripAll := true }) := by decide
  have hname : ("rpath", Setting.runPath) ∈ [("entry", .entry), ("rpath", .runPath),
      ("dynamic-linker", .dynamicLinker), ("linkmode", .linkMode)] := by decide
  obtain ⟨-, hagree⟩ := spellings_agree hname hpre "-v" ["-s"]
  refine ⟨hpre, hparse, ?_⟩
  rw [← hparse]
  exact hagree ["--rpath", "-v"] (by decide) ["-rpath=-v"] (by decide)

end ArmLink
