/-!
Type descriptors: the shapes of types as method signatures show them, and the signatures themselves.
Descriptors denote the same type when they are equal, so `ofName` and `ofElements` bring aliases and
the order of inline methods into one form.
-/

namespace Conformance

inductive Direction where
  | both
  | send
  | recv
  deriving DecidableEq, Repr

mutual

inductive Descriptor where
  | named (name : String) (args : List Descriptor)
  /-- A type parameter of the generic interface `owner`. -/
  | param (name owner : String)
  | pointer (elem : Descriptor)
  | slice (elem : Descriptor)
  | array (len : String) (elem : Descriptor)
  | map (key value : Descriptor)
  | chan (dir : Direction) (elem : Descriptor)
  /-- If variadic, the last parameter is the type after the dots. -/
  | func (params results : List Descriptor) (variadic : Bool)
  | interface (methods : List Signature) (embeds : List Descriptor)
  | struct (fields : List Field)

/-- The name of a method with its types; the names of parameters and results are no part of it. -/
structure Signature where
  name : String
  params : List Descriptor
  results : List Descriptor
  variadic : Bool

/-- A field of an inline struct; an embedded field has no name. -/
structure Field where
  name : Option String
  type : Descriptor

end

namespace Descriptor

/-- A predeclared, declared or imported type without arguments. -/
abbrev simple (name : String) : Descriptor := .named name []

abbrev emptyInterface : Descriptor := .interface [] []

/-- The type with this name; `byte`, `rune` and `any` without arguments are other names for types.
-/
def ofName (name : String) (args : List Descriptor) : Descriptor :=
  match args, name with
  | [], "byte" => simple "uint8"
  | [], "rune" => simple "int32"
  | [], "any" => emptyInterface
  | _, _ => .named name args

/-- The inline interface with these methods, in the order of their names. -/
def ofElements (methods : List Signature) (embeds : List Descriptor) : Descriptor :=
  .interface (methods.mergeSort fun a b ↦ decide (a.name ≤ b.name)) embeds

end Descriptor

def Signature.types (s : Signature) : List Descriptor := s.params ++ s.results

mutual

def Descriptor.mentionsParam : Descriptor → Bool
  | .named _ args => anyMentionsParam args
  | .param _ _ => true
  | .pointer e | .slice e | .array _ e | .chan _ e => e.mentionsParam
  | .map k v => k.mentionsParam || v.mentionsParam
  | .func ps rs _ => anyMentionsParam ps || anyMentionsParam rs
  | .interface ms es => anySignatureMentionsParam ms || anyMentionsParam es
  | .struct fs => anyFieldMentionsParam fs

def anyMentionsParam : List Descriptor → Bool
  | [] => false
  | d :: ds => d.mentionsParam || anyMentionsParam ds

def Signature.mentionsParam : Signature → Bool
  | ⟨_, ps, rs, _⟩ => anyMentionsParam ps || anyMentionsParam rs

def anySignatureMentionsParam : List Signature → Bool
  | [] => false
  | s :: ss => s.mentionsParam || anySignatureMentionsParam ss

def Field.mentionsParam : Field → Bool
  | ⟨_, d⟩ => d.mentionsParam

def anyFieldMentionsParam : List Field → Bool
  | [] => false
  | f :: fs => f.mentionsParam || anyFieldMentionsParam fs

end

mutual

def Descriptor.same : Descriptor → Descriptor → Bool
  | .named a as, .named b bs => a == b && allSame as bs
  | .param a o, .param b p => a == b && o == p
  | .pointer a, .pointer b => a.same b
  | .slice a, .slice b => a.same b
  | .array m a, .array n b => m == n && a.same b
  | .map k v, .map l w => k.same l && v.same w
  | .chan d a, .chan e b => d == e && a.same b
  | .func ps rs v, .func qs ss w => allSame ps qs && allSame rs ss && v == w
  | .interface ms es, .interface ns fs => allSignaturesSame ms ns && allSame es fs
  | .struct fs, .struct gs => allFieldsSame fs gs
  | _, _ => false

def allSame : List Descriptor → List Descriptor → Bool
  | [], [] => true
  | a :: as, b :: bs => a.same b && allSame as bs
  | _, _ => false

def Signature.same : Signature → Signature → Bool
  | ⟨m, ps, rs, v⟩, ⟨n, qs, ss, w⟩ => m == n && allSame ps qs && allSame rs ss && v == w

def allSignaturesSame : List Signature → List Signature → Bool
  | [], [] => true
  | a :: as, b :: bs => a.same b && allSignaturesSame as bs
  | _, _ => false

def Field.same : Field → Field → Bool
  | ⟨m, a⟩, ⟨n, b⟩ => m == n && a.same b

def allFieldsSame : List Field → List Field → Bool
  | [], [] => true
  | a :: as, b :: bs => a.same b && allFieldsSame as bs
  | _, _ => false

end

mutual

theorem Descriptor.same_iff : ∀ a b : Descriptor, a.same b ↔ a = b
  | .named _ as, b => by cases b <;> simp [Descriptor.same, allSame_iff as]
  | .param _ _, b => by cases b <;> simp [Descriptor.same]
  | .pointer a, b => by cases b <;> simp [Descriptor.same, Descriptor.same_iff a]
  | .slice a, b => by cases b <;> simp [Descriptor.same, Descriptor.same_iff a]
  | .array _ a, b => by cases b <;> simp [Descriptor.same, Descriptor.same_iff a]
  | .map k v, b => by
    cases b <;> simp [Descriptor.same, Descriptor.same_iff k, Descriptor.same_iff v]
  | .chan _ a, b => by cases b <;> simp [Descriptor.same, Descriptor.same_iff a]
  | .func ps rs _, b => by
    cases b <;> simp [Descriptor.same, allSame_iff ps, allSame_iff rs, and_assoc]
  | .interface ms es, b => by
    cases b <;> simp [Descriptor.same, allSignaturesSame_iff ms, allSame_iff es]
  | .struct fs, b => by cases b <;> simp [Descriptor.same, allFieldsSame_iff fs]

theorem allSame_iff : ∀ as bs : List Descriptor, allSame as bs ↔ as = bs
  | [], bs => by cases bs <;> simp [allSame]
  | a :: as, bs => by cases bs <;> simp [allSame, Descriptor.same_iff a, allSame_iff as]

theorem Signature.same_iff : ∀ a b : Signature, a.same b ↔ a = b
  | ⟨_, ps, rs, _⟩, ⟨_, _, _, _⟩ => by
    simp [Signature.same, allSame_iff ps, allSame_iff rs, and_assoc]

theorem allSignaturesSame_iff : ∀ as bs : List Signature, allSignaturesSame as bs ↔ as = bs
  | [], bs => by cases bs <;> simp [allSignaturesSame]
  | a :: as, bs => by
    cases bs <;> simp [allSignaturesSame, Signature.same_iff a, allSignaturesSame_iff as]

theorem Field.same_iff : ∀ a b : Field, a.same b ↔ a = b
  | ⟨_, d⟩, ⟨_, _⟩ => by simp [Field.same, Descriptor.same_iff d]

theorem allFieldsSame_iff : ∀ as bs : List Field, allFieldsSame as bs ↔ as = bs
  | [], bs => by cases bs <;> simp [allFieldsSame]
  | a :: as, bs => by cases bs <;> simp [allFieldsSame, Field.same_iff a, allFieldsSame_iff as]

end

instance : DecidableEq Descriptor := fun a b ↦ decidable_of_iff _ (Descriptor.same_iff a b)

instance : DecidableEq Signature := fun a b ↦ decidable_of_iff _ (Signature.same_iff a b)

end Conformance
