import Conformance.Reader

namespace Conformance.CommandLine

inductive Flag where
  | help
  | version
  | verbose
  | noParallel
  deriving DecidableEq, Repr

inductive Setting where
  | format
  | output
  | config
  | jobs
  | receiverPolicy
  deriving DecidableEq, Repr

inductive Switch where
  | flag (f : Flag)
  | setting (s : Setting)
  deriving DecidableEq, Repr

structure Name where
  switch : Switch
  letter : Option Char
  word : String

inductive Rejection where
  | help
  | version
  | noCommand
  | unknownCommand (word : String)
  | commandAfterDashes (word : String)
  | unknownSwitch (word : String)
  | unwantedValue (word : String)
  | missingValue (s : Setting)
  | badValue (value : String)
  | badNumber (value : String)
  | repeated
  | noTables
  deriving DecidableEq, Repr

inductive Item where
  | flag (f : Flag)
  | setting (s : Setting) (value : Option String)
  | operands (words : List String)
  deriving DecidableEq, Repr

inductive Word where
  | operand
  /-- Two dashes, after which all words are operands. -/
  | dashes
  /-- Complete items, and a setting whose value is the next word. -/
  | switches (items : List Item) (awaiting : Option Setting)
  /-- Complete items before something that cannot be read. -/
  | fault (items : List Item) (rejection : Rejection)
  deriving DecidableEq, Repr

namespace Word

def after (i : Item) : Word → Word
  | switches items awaiting => switches (i :: items) awaiting
  | fault items r => fault (i :: items) r
  | w => w

variable (names : List Name)

/-- Letters after one dash. What follows the letter of a setting is its value, and an equality sign
before it is left out. -/
def ofLetters : List Char → Word
  | [] => switches [] none
  | c :: cs =>
    match names.find? (·.letter = some c), cs with
    | none, _ => fault [] (.unknownSwitch (.ofList ['-', c]))
    | some ⟨.flag f, _, _⟩, _ => (ofLetters cs).after (.flag f)
    | some ⟨.setting s, _, _⟩, [] => switches [] (some s)
    | some ⟨.setting s, _, _⟩, '=' :: value => switches [.setting s (some (.ofList value))] none
    | some ⟨.setting s, _, _⟩, value => switches [.setting s (some (.ofList value))] none

def ofName (cs : List Char) : Word :=
  let (name, rest) := Reader.run (· != '=') cs
  match names.find? (·.word.toList = name), rest with
  | none, _ => fault [] (.unknownSwitch (.ofList ('-' :: '-' :: name)))
  | some ⟨.flag f, _, _⟩, [] => switches [.flag f] none
  | some ⟨.flag _, _, _⟩, _ :: value => fault [] (.unwantedValue (.ofList value))
  | some ⟨.setting s, _, _⟩, [] => switches [] (some s)
  | some ⟨.setting s, _, _⟩, _ :: value => switches [.setting s (some (.ofList value))] none

def ofText (text : String) : Word :=
  match text.toList with
  | ['-', '-'] => dashes
  | '-' :: '-' :: cs => ofName names cs
  | '-' :: c :: cs => ofLetters names (c :: cs)
  | _ => operand

end Word

/-- The items of several words. `held` is an item that the next word may complete. It counts once an
item follows or the words end, so a fault that comes first is met instead. -/
def Item.ofWords (names : List Name) :
    (held : Option Item) → List String → List Item × Option Rejection
  | held, [] => (held.toList, none)
  | held, w :: ws =>
    match Word.ofText names w, held with
    | .operand, some (.setting s none) => ofWords names (some (.setting s (some w))) ws
    | .operand, some (.operands os) => ofWords names (some (.operands (os ++ [w]))) ws
    | .operand, _ =>
      let (items, fault) := ofWords names (some (.operands [w])) ws
      (held.toList ++ items, fault)
    | .dashes, _ => (held.toList ++ [.operands ws], none)
    | .switches complete awaiting, _ =>
      let (items, fault) := ofWords names (awaiting.map (.setting · none)) ws
      (held.toList ++ complete ++ items, fault)
    | .fault [] r, _ => ([], some r)
    | .fault complete r, _ => (held.toList ++ complete, some r)

end Conformance.CommandLine
