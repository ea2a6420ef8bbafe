import TypedConfig.Name.Element
import TypedConfig.Shape.ScalarKind
import TypedConfig.Text.Blank
import TypedConfig.Value.Basic

/-!
# Conversion to scalars

`ScalarKind.convert` takes a value to a scalar kind, or says why it cannot be done. Text is read
generously: blanks around numbers and truth values do not count, nor do case and punctuation in the
variants of an enumeration. Null stays null for every kind.
-/

namespace TypedConfig

open Number Text

/-- Why a value is not of a kind. -/
inductive ConversionFailure where
  /-- A list or a map cannot become a scalar. -/
  | notScalar (typeName : String) (kind : ScalarKind)
  | notBoolean (value : Value)
  | notInteger (value : Value)
  | notNumber (value : Value)
  | outOfRange (n min max : Int64)
  | notCharacter (text : String)
  | notVariant (text : String) (variants : List String)
  /-- A converter that takes nothing gives this reason. -/
  | refused (reason : String)

/-- A value as a reason mentions it: a text between apostrophes, anything else as displayed. -/
def Value.mention : Value → String
  | .string s => "'" ++ s ++ "'"
  | v => v.display

/-- The reason in words. -/
def ConversionFailure.message : ConversionFailure → String
  | notScalar typeName kind => s!"a {typeName} cannot become a {kind}"
  | notBoolean value => value.mention ++ " is not a boolean"
  | notInteger value => value.mention ++ " is not an integer"
  | notNumber value => value.mention ++ " is not a number"
  | outOfRange n min max => s!"{n.toInt} is out of range [{min.toInt}, {max.toInt}]"
  | notCharacter text => "'" ++ text ++ "' is not a single character"
  | notVariant text variants =>
    "'" ++ text ++ "' is not one of [" ++ String.intercalate ", " variants ++ "]"
  | refused reason => reason

/-- The truth value that a text writes. -/
def readBool (s : String) : Option Bool :=
  let word := (trimChars s.toList).map Char.toLower
  if ["true", "yes", "on", "1"].any (·.toList == word) then some true
  else if ["false", "no", "off", "0"].any (·.toList == word) then some false
  else none

namespace Value

/-- The truth value that a scalar writes. -/
def toBool? : Value → Option Bool
  | bool b => some b
  | int i => if i == 0 then some false else if i == 1 then some true else none
  | string s => readBool s
  | _ => none

/-- The integer that a scalar writes. -/
def toInt? : Value → Option Int64
  | string s => (readInteger (trimChars s.toList)).bind narrow?
  | v => v.asInt?

/-- The number that a scalar writes. -/
def toFloat? : Value → Option Binary64
  | string s => readBinary64 (trimChars s.toList)
  | v => v.asFloat?

end Value

namespace ScalarKind

/-- The integer, if it lies between the bounds. -/
def checkRange (min max n : Int64) : Except ConversionFailure Value :=
  if n < min || max < n then .error (.outOfRange n min max) else .ok (.int n)

/-- The text, if it is one character. -/
def checkCharacter (text : String) : Except ConversionFailure Value :=
  if text.length = 1 then .ok (.string text) else .error (.notCharacter text)

/-- The first variant with the uniform form of a text. -/
def selectVariant (variants : List String) (text : String) : Except ConversionFailure Value :=
  match variants.find? fun variant => uniformForm variant == uniformForm text with
  | some variant => .ok (.string variant)
  | none => .error (.notVariant text variants)

/-- Takes a scalar that is not null to a kind. -/
def convertScalar (kind : ScalarKind) (v : Value) : Except ConversionFailure Value :=
  match kind with
  | string => .ok (.string (v.text?.getD ""))
  | bool =>
    match v.toBool? with
    | some b => .ok (.bool b)
    | none => .error (.notBoolean v)
  | int min max =>
    match v.toInt? with
    | some n => checkRange min max n
    | none => .error (.notInteger v)
  | float =>
    match v.toFloat? with
    | some x => .ok (.float x)
    | none => .error (.notNumber v)
  | char => checkCharacter (v.text?.getD "")
  | enum variants => selectVariant variants (v.text?.getD "")

/-- Takes a value to a kind. -/
def convert (kind : ScalarKind) (v : Value) : Except ConversionFailure Value :=
  if v.isNull then .ok .null
  else if !v.isScalar then .error (.notScalar v.typeName kind)
  else kind.convertScalar v

end ScalarKind

/-- What takes source values to scalars during binding. -/
inductive Converter where
  /-- Conversion by `ScalarKind.convert`. -/
  | standard
  /-- Every conversion gives one value. -/
  | constant (value : Value)
  /-- Every conversion fails for one reason. -/
  | refusing (reason : String)

/-- Takes a value to a kind. -/
def Converter.convert (c : Converter) (kind : ScalarKind) (v : Value) :
    Except ConversionFailure Value :=
  match c with
  | standard => kind.convert v
  | constant value => .ok value
  | refusing reason => .error (.refused reason)

end TypedConfig
