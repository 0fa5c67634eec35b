import Conformance.FileTree
import Conformance.Settings
import Mathlib.Data.List.Basic

namespace Conformance

namespace Path

theorem take_ancestors (path : String) (m n : Nat) :
    (ancestors path n).take m = ancestors path (min m n) := by
  induction n generalizing path m with
  | zero => rw [ancestors, List.take_nil, Nat.min_zero, ancestors]
  | succ n ih =>
    cases m with
    | zero => rw [List.take_zero, Nat.zero_min, ancestors]
    | succ m =>
      rw [ancestors, List.take_succ_cons, Nat.succ_min_succ, ancestors]
      cases parent? path with
      | none => rw [List.take_nil]
      | some up => rw [ih]

end Path

namespace Settings

variable (decode : String → Option Settings) (read : String → Option String)

def given (path : String) : Option Settings := (read path).bind decode

/-- The settings of the first of these files that is there, or the default ones if it is malformed
or none is there. -/
def ofFirst (paths : List String) : Settings :=
  match paths.findSome? read with
  | some text => (decode text).getD {}
  | none => {}

/-- The first of these files that is there is malformed, and the first behind it that gives settings
does not give the default ones. -/
def PassesOver (paths : List String) : Prop :=
  ∃ before path after text s, paths = before ++ path :: after ∧ (∀ q ∈ before, read q = none) ∧
    read path = some text ∧ decode text = none ∧
      after.findSome? (given decode read) = some s ∧ s ≠ {}

variable {decode read}

theorem passesOver_cons_of_absent {path : String} {paths : List String} (h : read path = none) :
    PassesOver decode read (path :: paths) ↔ PassesOver decode read paths := by
  constructor
  · rintro ⟨before, q, after, text, s, hpaths, hbefore, hq, hrest⟩
    cases before with
    | nil =>
      cases hpaths
      cases h.symm.trans hq
    | cons _ before =>
      obtain ⟨rfl, rfl⟩ := List.cons.inj hpaths
      exact ⟨before, q, after, text, s, rfl, (List.forall_mem_cons.1 hbefore).2, hq, hrest⟩
  · rintro ⟨before, q, after, text, s, rfl, hbefore, hrest⟩
    exact ⟨path :: before, q, after, text, s, rfl, List.forall_mem_cons.2 ⟨h, hbefore⟩, hrest⟩

theorem passesOver_cons_of_present {path text : String} {paths : List String}
    (h : read path = some text) : PassesOver decode read (path :: paths) ↔
      decode text = none ∧ ∃ s, paths.findSome? (given decode read) = some s ∧ s ≠ {} := by
  constructor
  · rintro ⟨before, q, after, text', s, hpaths, hbefore, hq, hmalformed, hrest⟩
    cases before with
    | nil =>
      cases hpaths
      obtain rfl := Option.some.inj (h.symm.trans hq)
      exact ⟨hmalformed, s, hrest⟩
    | cons _ before =>
      obtain ⟨rfl, rfl⟩ := List.cons.inj hpaths
      cases h.symm.trans (List.forall_mem_cons.1 hbefore).1
  · rintro ⟨hmalformed, s, hrest⟩
    exact ⟨[], path, paths, text, s, rfl, List.forall_mem_nil _, h, hmalformed, hrest⟩

theorem getD_findSome?_eq_ofFirst_iff (paths : List String) :
    (paths.findSome? (given decode read)).getD {} = ofFirst decode read paths ↔
      ¬ PassesOver decode read paths := by
  induction paths with
  | nil => exact ⟨fun _ ↦ by simp [PassesOver], fun _ ↦ rfl⟩
  | cons path paths ih =>
    cases hread : read path with
    | none =>
      have hgiven : given decode read path = none := by rw [given, hread]; rfl
      rw [passesOver_cons_of_absent hread, ← ih, List.findSome?_cons, hgiven, ofFirst, ofFirst,
        List.findSome?_cons, hread]
    | some text =>
      have hgiven : given decode read path = decode text := by rw [given, hread]; rfl
      rw [passesOver_cons_of_present hread, List.findSome?_cons, hgiven, ofFirst,
        List.findSome?_cons, hread]
      dsimp only
      cases decode text with
      | some s => simp
      | none => cases paths.findSome? (given decode read) <;> simp

theorem nearest_congr {files : String → Option String} {start : String}
    (h : ∀ path ∈ candidates start, files path = read path) :
    nearestWith decode files start = nearestWith decode read start := by
  have hsame : ∀ path ∈ candidates start, given decode files path = given decode read path :=
    fun path hpath ↦ by rw [given, given, h path hpath]
  change ((candidates start).findSome? (given decode files)).getD {} =
    ((candidates start).findSome? (given decode read)).getD {}
  rw [← List.head?_filterMap, ← List.head?_filterMap, List.filterMap_congr hsame]

variable (decode read)

/-- The settings for a directory are those of the nearest file that can be decoded, among those of
the directory and of the directories above it, ten in all; without one they are the default ones. No
other file has a say. They are those of the nearest file that is there, malformed or not, unless it
is passed over. -/
theorem nearest_decides (start : String) :
    ((∃ before path after s, candidates start = before ++ path :: after ∧
        (∀ q ∈ before, given decode read q = none) ∧ given decode read path = some s ∧
          nearestWith decode read start = s) ∨
      (∀ q ∈ candidates start, given decode read q = none) ∧ nearestWith decode read start = {}) ∧
    (∀ n, candidates start =
      ((Path.ancestors start (10 + n)).take 10).map (Path.child · ".implens.toml")) ∧
    (∀ elsewhere : String → Option String,
      nearestWith decode
        (fun path ↦ if path ∈ candidates start then read path else elsewhere path) start =
        nearestWith decode read start) ∧
    (nearestWith decode read start = ofFirst decode read (candidates start) ↔
      ¬ PassesOver decode read (candidates start)) := by
  refine ⟨?_, fun n ↦ ?_, fun elsewhere ↦ ?_, getD_findSome?_eq_ofFirst_iff _⟩
  · cases hfound : (candidates start).findSome? (given decode read) with
    | none =>
      refine .inr ⟨List.findSome?_eq_none_iff.1 hfound, ?_⟩
      exact congrArg (·.getD {}) hfound
    | some s =>
      obtain ⟨before, path, after, hpaths, hpath, hbefore⟩ := List.findSome?_eq_some_iff.1 hfound
      exact .inl ⟨before, path, after, s, hpaths, hbefore, hpath, congrArg (·.getD {}) hfound⟩
  · rw [Path.take_ancestors, Nat.min_eq_left (Nat.le_add_right 10 n)]
    rfl
  · exact nearest_congr fun path hpath ↦ if_pos hpath

def strayFiles : FileTree := .ofList
  [("pkg/.implens.toml", "[parallel\nenabled = "),
    (".implens.toml", "[matching]\nreceiver_policy = \"value-only\"\n")]

/-- The nearest file is malformed, and the settings are not the default ones. -/
theorem farther_settings_used :
    (candidates "pkg").findSome? strayFiles.read = some "[parallel\nenabled = " ∧
      parse? "[parallel\nenabled = " = none ∧
      nearest strayFiles.read "pkg" = { receiverPolicy := .valueOnly } ∧
      nearest strayFiles.read "pkg" ≠ {} := by
  decide +kernel

end Settings

end Conformance
