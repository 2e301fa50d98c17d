/-
  Settings as JSON.

  * `Settings.ofJson?`: an object of fields in any order, names of no field passed over, or an
    array of the first fields in their order.  A language is a string, or an object with the
    language as its only name and null as its value.
  * `Settings.toJson`: all fields.
-/
import QuantumLowering.Json.Basic
import QuantumLowering.Json.Token
import QuantumLowering.Settings.Draft

namespace QuantumLowering

namespace Settings

/-- A language at the front of the tokens. -/
def languageToken? : List JsonToken → Option (TargetLanguage × List JsonToken)
  | .string (some name) :: r => (TargetLanguage.ofName? name).map (·, r)
  | .openBrace :: .string (some name) :: .colon :: .null :: .closeBrace :: r =>
    (TargetLanguage.ofName? name).map (·, r)
  | _ => none

/-- The value of a field, of at most so many tokens, entered into the draft, and the tokens
    after it. -/
def fieldTokens? (fuel : Nat) (field : SettingsField) (draft : SettingsDraft)
    (ts : List JsonToken) : Option (SettingsDraft × List JsonToken) :=
  match field, ts with
  | .language, ts => (languageToken? ts).bind fun (l, r) => (draft.setLanguage? l).map (·, r)
  | .library, .bool b :: r => (draft.setLibrary? b).map (·, r)
  | .comments, .bool b :: r => (draft.setComments? b).map (·, r)
  | .indent, .number (some n) :: r => (draft.setIndent? n).map (·, r)
  | .other, ts => (JsonToken.skip? fuel ts).map (draft, ·)
  | _, _ => none

/-- The members of an object up to the end of the text; there are at most so many. -/
def memberTokens? : Nat → SettingsDraft → List JsonToken → Option SettingsDraft
  | 0, _, _ => none
  | fuel + 1, draft, .string (some name) :: .colon :: r =>
    match fieldTokens? fuel (SettingsField.ofName name) draft r with
    | some (draft, .comma :: r) => memberTokens? fuel draft r
    | some (draft, [.closeBrace]) => some draft
    | _ => none
  | _, _, _ => none

/-- The elements of an array up to the end of the text, for these fields in turn. -/
def elementTokens? : List SettingsField → SettingsDraft → List JsonToken → Option SettingsDraft
  | [], _, _ => none
  | field :: fields, draft, ts =>
    match fieldTokens? ts.length field draft ts with
    | some (draft, .comma :: r) => elementTokens? fields draft r
    | some (draft, [.closeBracket]) => some draft
    | _ => none

/-- The draft that tokens denote. -/
def draftOfTokens? : List JsonToken → Option SettingsDraft
  | [.openBrace, .closeBrace] => some .empty
  | [.openBracket, .closeBracket] => some .empty
  | .openBrace :: r => memberTokens? (2 * r.length) .empty r
  | .openBracket :: r => elementTokens? [.language, .library, .comments, .indent] .empty r
  | _ => none

/-- The settings a JSON text denotes; they are not checked. -/
def ofJson? (s : String) : Option Settings :=
  ((JsonToken.scan? s).bind draftOfTokens?).map SettingsDraft.finish

/-- The settings as a JSON value. -/
def toJson (s : Settings) : Json :=
  .object [("target_language", .string s.language.name), ("build_library", .bool s.library),
    ("emit_comments", .bool s.comments), ("indent", .number s.indent)]

end Settings

end QuantumLowering
