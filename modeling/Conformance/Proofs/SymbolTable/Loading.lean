import Conformance.SymbolTable.Loading
import Conformance.Proofs.Grammar.Yield
import Conformance.Proofs.Program.Merging
import Mathlib.Data.List.Forall2

namespace Conformance

open Conformance.Parser (bind_eq_ok pure_eq_ok)

theorem forall₂_of_mapM_eq_ok {ε α β : Type} {f : α → Except ε β} {xs : List α} {ys : List β}
    (h : xs.mapM f = .ok ys) : List.Forall₂ (fun x y ↦ f x = .ok y) xs ys := by
  induction xs generalizing ys with
  | nil =>
    cases pure_eq_ok.1 h
    exact .nil
  | cons x xs ih =>
    rw [List.mapM_cons] at h
    obtain ⟨y, hy, h⟩ := bind_eq_ok.1 h
    obtain ⟨ys, hys, h⟩ := bind_eq_ok.1 h
    cases pure_eq_ok.1 h
    exact .cons hy (ih hys)

theorem forall₂_flatMap {α β γ : Type} {R : β → γ → Prop} {f : α → List β} {xs : List α}
    {yss : List (List γ)} (h : List.Forall₂ (fun x ys ↦ List.Forall₂ R (f x) ys) xs yss) :
    List.Forall₂ R (xs.flatMap f) yss.flatten :=
  List.rel_flatten (List.forall₂_map_left_iff.2 h)

theorem lookup_filter_ne {ls : List (String × Location)} {n m : String} :
    (ls.filter (·.1 != m)).lookup n = if m = n then none else ls.lookup n := by
  induction ls with
  | nil => simp
  | cons l ls ih => grind

theorem InterfaceDecl.methodLocation?_addMethod {d : InterfaceDecl} {s : Signature}
    {location : Option Location} {name : String} :
    (d.addMethod s location).methodLocation? name =
      (if s.name = name then location else none).or (d.methodLocation? name) := by
  cases location with
  | none => simp [addMethod, methodLocation?]
  | some l =>
    rw [addMethod, methodLocation?, List.lookup_append, lookup_filter_ne, methodLocation?]
    by_cases hname : s.name = name
    · simp [hname]
    · simp [hname, List.lookup_cons, beq_false_of_ne (Ne.symm hname)]

namespace SymbolTable

def placeIn (file : Option String) (name : String) (x : InterfaceMethod × Signature) :
    Option Location :=
  if x.2.name = name then file.bind fun f ↦ x.1.line?.map fun line ↦ ⟨f, line⟩ else none

/-- The declaration says what the entry says. Where methods have one name, the position of the last
of them that has one is that of the name. -/
structure InterfaceEntry.Declares (e : InterfaceEntry) (d : InterfaceDecl) : Prop where
  name : d.name = e.name
  typeParams : d.typeParams = e.typeParams
  embeds : d.embeds = e.embeds
  location : d.location = SymbolTable.location e.file e.line
  methods : List.Forall₂ (fun m s ↦ Signature.parse m.signature = .ok s) e.methods d.methods
  methodLocations : ∀ name, d.methodLocation? name =
    (e.methods.zip d.methods).reverse.findSome? (placeIn e.file name)

namespace InterfaceEntry

variable {e : InterfaceEntry} {d d' : InterfaceDecl}

theorem Declares.addTo {m : InterfaceMethod} (h : e.Declares d)
    (hm : m.addTo e.file d = .ok d') : { e with methods := e.methods ++ [m] }.Declares d' := by
  obtain ⟨s, hs, hm⟩ := bind_eq_ok.1 hm
  cases pure_eq_ok.1 hm
  refine ⟨h.name, h.typeParams, h.embeds, h.location, ?_, fun name ↦ ?_⟩
  · exact List.rel_append h.methods (.cons hs .nil)
  · change _ = ((e.methods ++ [m]).zip (d.methods ++ [s])).reverse.findSome? _
    rw [InterfaceDecl.methodLocation?_addMethod, h.methodLocations,
      List.zip_append h.methods.length_eq, List.reverse_append, List.findSome?_append]
    exact congrArg (Option.or · _) List.findSome?_singleton.symm

theorem Declares.foldlM {ms : List InterfaceMethod} (h : e.Declares d)
    (hms : ms.foldlM (InterfaceMethod.addTo e.file) d = .ok d') :
    { e with methods := e.methods ++ ms }.Declares d' := by
  induction ms generalizing e d with
  | nil =>
    cases pure_eq_ok.1 hms
    rwa [List.append_nil]
  | cons m ms ih =>
    rw [List.foldlM_cons] at hms
    obtain ⟨d₁, hm, hms⟩ := bind_eq_ok.1 hms
    rw [List.append_cons]
    exact ih (h.addTo hm) hms

theorem declares_of_declaration (h : e.declaration = .ok d) : e.Declares d := by
  have hstart : { e with methods := [] }.Declares
      ⟨e.name, e.typeParams, [], e.embeds, SymbolTable.location e.file e.line, []⟩ :=
    ⟨rfl, rfl, rfl, rfl, .nil, fun _ ↦ rfl⟩
  exact hstart.foldlM h

end InterfaceEntry

structure ListedMethod where
  receiver : String
  form : ReceiverForm
  text : String
  location : Option Location

structure ListedMethod.Declares (x : ListedMethod) (m : MethodDecl) : Prop where
  receiver : m.receiver = x.receiver
  form : m.form = x.form
  signature : Signature.parse x.text = .ok m.signature
  location : m.location = x.location

def TypeEntry.listed (e : TypeEntry) : List ListedMethod :=
  e.methods.map (⟨e.name, .value, ·, location e.file e.line⟩) ++
    e.pointerMethods.map (⟨e.name, .pointer, ·, location e.file e.line⟩)

def MethodEntry.listed (e : MethodEntry) : ListedMethod :=
  ⟨(SymbolTable.receiver e.receiver).2, (SymbolTable.receiver e.receiver).1, e.signature,
    location e.file e.line⟩

/-- The methods of the types, then those that are listed apart. -/
def listedMethods (t : SymbolTable) : List ListedMethod :=
  t.types.flatMap (·.listed) ++ t.methods.map (·.listed)

theorem TypeEntry.declares_of_methodDeclarations {e : TypeEntry} {ms : List MethodDecl}
    (h : e.methodDeclarations = .ok ms) : List.Forall₂ ListedMethod.Declares e.listed ms := by
  have hlisted : e.listed = (e.methods.map (ReceiverForm.value, ·) ++
      e.pointerMethods.map (ReceiverForm.pointer, ·)).map fun x ↦
        ⟨e.name, x.1, x.2, SymbolTable.location e.file e.line⟩ := by
    rw [List.map_append, List.map_map, List.map_map]
    rfl
  rw [hlisted, List.forall₂_map_left_iff]
  refine (forall₂_of_mapM_eq_ok h).imp fun x m hm ↦ ?_
  obtain ⟨s, hs, hm⟩ := bind_eq_ok.1 hm
  cases pure_eq_ok.1 hm
  exact ⟨rfl, rfl, hs, rfl⟩

theorem MethodEntry.declares_of_declaration {e : MethodEntry} {m : MethodDecl}
    (h : e.declaration = .ok m) : e.listed.Declares m := by
  obtain ⟨s, hs, h⟩ := bind_eq_ok.1 h
  rw [listed]
  -- a goal with the receiver's text would have it read again and again
  generalize SymbolTable.receiver e.receiver = x at h ⊢
  cases pure_eq_ok.1 h
  exact ⟨rfl, rfl, hs, rfl⟩

section

variable {ε : Type} {decode : Format → String → Except ε SymbolTable}
  {read : String → Option String} {path : String} {p : Program}

variable (decode read) in
def ofFile? (path : String) : Option SymbolTable := do
  let format ← Format.ofPath? path
  let text ← read path
  (decode format text).toOption

theorem programWith_eq_ok {format : Format} {text : String}
    (h : programWith decode format text = .ok p) :
    ∃ t, decode format text = .ok t ∧ t.program = .ok p := by
  obtain ⟨t, ht, h⟩ := bind_eq_ok.1 h
  rw [parseWith] at ht
  refine ⟨t, ?_, ?_⟩
  · cases hdecode : decode format text with
    | error e => simp [hdecode, Except.mapError] at ht
    | ok u => simpa [hdecode, Except.mapError] using ht
  · cases hprogram : t.program with
    | error e => simp [hprogram, Except.mapError] at h
    | ok q => simpa [hprogram, Except.mapError] using h

theorem exists_table_of_loadFile (h : loadFile decode read path = .ok p) :
    ∃ t, ofFile? decode read path = some t ∧ t.program = .ok p := by
  cases hformat : Format.ofPath? path with
  | none => simp [loadFile, hformat] at h
  | some format =>
    cases htext : read path with
    | none => simp [loadFile, hformat, htext] at h
    | some text =>
      simp only [loadFile, hformat, htext] at h
      obtain ⟨t, ht, hprogram⟩ := programWith_eq_ok h
      exact ⟨t, by simp [ofFile?, hformat, htext, ht, Except.toOption], hprogram⟩

end

end SymbolTable

namespace Program

open SymbolTable

/-- The program has the entries of these tables in their order, and no others. -/
structure Holds (p : Program) (tables : List SymbolTable) : Prop where
  interfaces :
    List.Forall₂ InterfaceEntry.Declares (tables.flatMap (·.interfaces)) p.interfaces
  types : p.types = (tables.flatMap (·.types)).map (·.declaration)
  methods : List.Forall₂ ListedMethod.Declares (tables.flatMap listedMethods) p.methods

variable {p q : Program} {ts us : List SymbolTable}

theorem Holds.merge (hp : p.Holds ts) (hq : q.Holds us) : (p.merge q).Holds (ts ++ us) where
  interfaces := by
    rw [List.flatMap_append]
    exact List.rel_append hp.interfaces hq.interfaces
  types := by
    rw [List.flatMap_append, List.map_append, ← hp.types, ← hq.types]
    rfl
  methods := by
    rw [List.flatMap_append]
    exact List.rel_append hp.methods hq.methods

theorem holds_empty : ({} : Program).Holds [] := ⟨.nil, rfl, .nil⟩

theorem holds_of_program {t : SymbolTable} (h : t.program = .ok p) :
    p.Holds [t] ∧ p.externals = t.externals := by
  obtain ⟨interfaces, hinterfaces, h⟩ := bind_eq_ok.1 h
  obtain ⟨ofTypes, hofTypes, h⟩ := bind_eq_ok.1 h
  obtain ⟨methods, hmethods, h⟩ := bind_eq_ok.1 h
  cases pure_eq_ok.1 h
  refine ⟨⟨?_, ?_, ?_⟩, rfl⟩
  · rw [List.flatMap_singleton]
    exact (forall₂_of_mapM_eq_ok hinterfaces).imp fun _ _ ↦ InterfaceEntry.declares_of_declaration
  · rw [List.flatMap_singleton]
  · rw [List.flatMap_singleton]
    refine List.rel_append (forall₂_flatMap ?_) (List.forall₂_map_left_iff.2 ?_)
    · exact (forall₂_of_mapM_eq_ok hofTypes).imp fun _ _ ↦ TypeEntry.declares_of_methodDeclarations
    · exact (forall₂_of_mapM_eq_ok hmethods).imp fun _ _ ↦ MethodEntry.declares_of_declaration

section

variable {ε : Type} (decode : Format → String → Except ε SymbolTable)
  (read : String → Option String)

theorem foldlM_loadFile (p : Program) (paths : List String) :
    paths.foldlM (fun p path ↦ do return p.merge (← loadFile decode read path)) p =
      (loadWith decode read paths).map p.merge := by
  induction paths generalizing p with
  | nil => exact congrArg Except.ok p.merge_empty.symm
  | cons path paths ih =>
    rw [loadWith, List.foldlM_cons, List.foldlM_cons]
    cases loadFile decode read path with
    | error e => rfl
    | ok q =>
      change paths.foldlM _ (p.merge q) = Except.map p.merge (paths.foldlM _ (merge {} q))
      rw [ih, ih]
      cases loadWith decode read paths with
      | error e => rfl
      | ok r =>
        refine congrArg Except.ok ?_
        rw [← merge_assoc, ← merge_assoc, merge_empty]

theorem load_append (a b : List String) :
    loadWith decode read (a ++ b) = match loadWith decode read a, loadWith decode read b with
      | .error e, _ => .error e
      | .ok _, .error e => .error e
      | .ok p, .ok q => .ok (p.merge q) := by
  rw [loadWith, List.foldlM_append]
  change (loadWith decode read a >>= fun p ↦ b.foldlM _ p) = _
  cases loadWith decode read a with
  | error e => rfl
  | ok p =>
    change b.foldlM _ p = _
    rw [foldlM_loadFile]
    cases loadWith decode read b <;> rfl

theorem load_singleton (path : String) :
    loadWith decode read [path] = (loadFile decode read path).map (merge {}) := by
  rw [loadWith, List.foldlM_cons]
  cases loadFile decode read path <;> rfl

theorem exists_tables_of_load {paths : List String} (h : loadWith decode read paths = .ok p) :
    ∃ tables, List.Forall₂ (fun path t ↦ ofFile? decode read path = some t) paths tables ∧
      p.Holds tables ∧ p.externals = addExternals [] (tables.flatMap (·.externals)) := by
  induction paths generalizing p with
  | nil =>
    cases pure_eq_ok.1 h
    exact ⟨[], .nil, holds_empty, rfl⟩
  | cons path paths ih =>
    rw [← List.singleton_append, load_append, load_singleton] at h
    cases hfile : loadFile decode read path with
    | error e =>
      rw [hfile] at h
      cases h
    | ok q =>
      rw [hfile] at h
      cases hrest : loadWith decode read paths with
      | error e =>
        rw [hrest] at h
        cases h
      | ok r =>
        rw [hrest] at h
        cases h
        obtain ⟨t, ht, hprogram⟩ := exists_table_of_loadFile hfile
        obtain ⟨hholds, hexternals⟩ := holds_of_program hprogram
        obtain ⟨ts, hts, hr, hr'⟩ := ih hrest
        refine ⟨t :: ts, .cons ht hts, (holds_empty.merge hholds).merge hr, ?_⟩
        change addExternals (addExternals [] q.externals) r.externals = _
        rw [hexternals, hr', List.flatMap_cons, addExternals_addExternals, addExternals_append]
        rfl

/-- Loading composes, whatever the files are and however they are decoded: it gives what the parts
merged give, or the first of their errors. What is loaded has each entry of the tables once and in
their order, and the external names in the order in which they first occur. -/
theorem load_composes :
    (∀ p q r : Program, (p.merge q).merge r = p.merge (q.merge r)) ∧
    (∀ a b, loadWith decode read (a ++ b) =
      match loadWith decode read a, loadWith decode read b with
      | .error e, _ => .error e
      | .ok _, .error e => .error e
      | .ok p, .ok q => .ok (p.merge q)) ∧
    ∀ paths p, loadWith decode read paths = .ok p → ∃ tables,
      List.Forall₂ (fun path t ↦ ofFile? decode read path = some t) paths tables ∧ p.Holds tables ∧
        FirstOccurrences (tables.flatMap (·.externals)) p.externals := by
  refine ⟨merge_assoc, load_append decode read, fun paths p h ↦ ?_⟩
  obtain ⟨tables, htables, hholds, hexternals⟩ := exists_tables_of_load decode read h
  exact ⟨tables, htables, hholds, hexternals ▸ firstOccurrences_addExternals _⟩

end

def twoFiles : String → Option String
  | "calls.toml" => some
    "externs = [\"Clock\"]\n[[interface]]\nname = \"Closer\"\nmethods = [\"Close()\"]\n"
  | "kinds.toml" => some
    "externs = [\"Log\", \"Clock\", \"Log\"]\n[[type]]\nname = \"File\"\nmethods = [\"Close()\"]\n"
  | _ => none

def calls : SymbolTable where
  externals := ["Clock"]
  interfaces := [{ name := some "Closer", methods := [.plain "Close()"] }]

def kinds : SymbolTable where
  externals := ["Log", "Clock", "Log"]
  types := [{ name := "File", methods := ["Close()"] }]

theorem load_composes_twoFiles : ∃ p, load twoFiles ["calls.toml", "kinds.toml"] = .ok p ∧
    p.externals = ["Clock", "Log"] ∧ p.externals.Nodup ∧ p.Holds [calls, kinds] := by
  have hcalls : ofFile? Format.decoder twoFiles "calls.toml" = some calls := by decide +kernel
  have hkinds : ofFile? Format.decoder twoFiles "kinds.toml" = some kinds := by decide +kernel
  have hexternals : (load twoFiles ["calls.toml", "kinds.toml"]).toOption.map (·.externals) =
      some ["Clock", "Log"] := by decide +kernel
  cases hp : load twoFiles ["calls.toml", "kinds.toml"] with
  | error e =>
    rw [hp] at hexternals
    cases hexternals
  | ok p =>
    rw [hp] at hexternals
    obtain ⟨tables, htables, hholds, hfirst⟩ := (load_composes Format.decoder twoFiles).2.2 _ p hp
    obtain rfl : tables = [calls, kinds] := by
      obtain _ | ⟨hc, _ | ⟨hk, _ | _⟩⟩ := htables
      rw [Option.some.inj (hc.symm.trans hcalls), Option.some.inj (hk.symm.trans hkinds)]
    exact ⟨p, rfl, Option.some.inj hexternals, hfirst.nodup, hholds⟩

end Program

end Conformance
