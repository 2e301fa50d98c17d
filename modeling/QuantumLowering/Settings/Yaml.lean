/-
  Settings as YAML.

  * `Settings.ofYaml?`: a mapping of fields in any order, names of no field passed over; an
    empty document says nothing.  Words and numbers are read from plain scalars, the language
    from a scalar of any style, or from a tag in front of nothing.
-/
import QuantumLowering.Yaml.Document
import QuantumLowering.Settings.Draft

namespace QuantumLowering

namespace Yaml.Scalar

/-- Whether a scalar may stand for a value of a kind: it is plain, or its lines are kept and its
    tag names the kind. -/
def mayBe (s : Scalar) (kind : String) : Bool :=
  s.style = .plain ||
    s.style = .literal && s.tag = some ("tag:yaml.org,2002:" ++ kind).toUTF8.toList

/-- The truth value of a scalar. -/
def bool? (s : Scalar) : Option Bool :=
  if !s.mayBe "bool" then none
  else match s.text with
    | "true" | "True" | "TRUE" => some true
    | "false" | "False" | "FALSE" => some false
    | _ => none

/-- The number that digits of a base denote; there is at least one. -/
def ofDigits? (base : Nat) (cs : List Char) : Option Nat :=
  if cs.isEmpty then none
  else cs.foldl (fun n c => n.bind fun n => (hexValue? c).bind fun d =>
    if d < base then some (base * n + d) else none) (some 0)

/-- The natural number that a text denotes; decimals do not start with a superfluous zero. -/
def natOf? (cs : List Char) : Option Nat :=
  match cs with
  | '0' :: 'x' :: r => ofDigits? 16 r
  | '0' :: 'o' :: r => ofDigits? 8 r
  | '0' :: 'b' :: r => ofDigits? 2 r
  | '0' :: _ :: _ => none
  | _ => ofDigits? 10 cs

/-- The natural number of a scalar; it may have a plus sign. -/
def nat? (s : Scalar) : Option Nat :=
  if !s.mayBe "int" then none
  else match s.text.toList with
    | '+' :: r => natOf? r
    | cs => natOf? cs

/-- Whether a scalar says nothing. -/
def isNull (s : Scalar) : Bool :=
  s.style = .plain && ["", "null", "Null", "NULL", "~"].contains s.text

/-- What a tag says behind its exclamation mark, if it is text. -/
def ownTag? (s : Scalar) : Option String :=
  match s.tag with
  | some (mark :: name) =>
    if [mark] = markOctets then String.fromUTF8? ⟨name.toArray⟩ else none
  | _ => none

/-- The language of a scalar: its text, or its own tag if it says nothing else. -/
def language? (s : Scalar) : Option TargetLanguage :=
  match s.ownTag? with
  | some name => if s.isNull then TargetLanguage.ofName? name else none
  | none => TargetLanguage.ofName? s.text

end Yaml.Scalar

namespace Settings

/-- The value of a field, entered into the draft. -/
def fieldNode? (d : Yaml.Document) (draft : SettingsDraft) (field : SettingsField)
    (v : Yaml.Node) : Option SettingsDraft :=
  match field with
  | .language => ((d.scalar? v).bind (·.language?)).bind draft.setLanguage?
  | .library => ((d.scalar? v).bind (·.bool?)).bind draft.setLibrary?
  | .comments => ((d.scalar? v).bind (·.bool?)).bind draft.setComments?
  | .indent => ((d.scalar? v).bind (·.nat?)).bind draft.setIndent?
  | .other => some draft

/-- The draft that a document denotes. -/
def draftOfDocument? (d : Yaml.Document) : Option SettingsDraft :=
  match d.root with
  | none => some .empty
  | some (.scalar s) => if s.style = .plain ∧ s.text = "" then some .empty else none
  | some (.mapping pairs) =>
    pairs.foldlM (fun draft (k, v) => (d.scalar? k).bind fun name =>
      fieldNode? d draft (.ofName name.text) v) .empty
  | some _ => none

/-- The settings a YAML text denotes; they are not checked. -/
def ofYaml? (s : String) : Option Settings :=
  ((Yaml.Document.ofText? s).bind draftOfDocument?).map SettingsDraft.finish

end Settings

end QuantumLowering
