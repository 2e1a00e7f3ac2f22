import Stencil.Run.Template

/-! # The journal in words

Every event of a run makes a record, whose message shows a field with all its parts and an argument
by its literal. All records have the level for debugging, and which levels a log delivers is up to
the log.
-/

namespace Stencil

def Align.member : Align → List Char
  | left => "LEFT".toList
  | right => "RIGHT".toList
  | center => "CENTER".toList
  | afterSign => "AFTER_SIGN".toList

def Sign.member : Sign → List Char
  | unset => "NONE".toList
  | minus => "MINUS".toList
  | plus => "PLUS".toList
  | space => "SPACE".toList

def Conversion.member : Conversion → List Char
  | standard => "NONE".toList
  | decimal => "DECIMAL".toList
  | binary => "BINARY".toList
  | octal => "OCTAL".toList
  | hex => "HEX".toList
  | scientific => "SCIENTIFIC".toList
  | fixed => "FIXED".toList
  | general => "GENERAL".toList
  | percent => "PERCENT".toList
  | string => "STRING".toList
  | char => "CHAR".toList
  | debug => "DEBUG".toList

def Case.member : Case → List Char
  | lower => "LOWER".toList
  | upper => "UPPER".toList

def Case.name : Case → List Char
  | lower => "lower".toList
  | upper => "upper".toList

def memberText (set member value : List Char) : List Char :=
  '<' :: set ++ '.' :: member ++ ": ".toList ++ Quoted.literal value ++ ['>']

def optionText {α : Type} (text : α → List Char) : Option α → List Char
  | none => "None".toList
  | some a => text a

def flagText (b : Bool) : List Char := if b then "True".toList else "False".toList

def recordText (name : List Char) (parts : List (List Char × List Char)) : List Char :=
  name ++ '(' :: commaSeparated (parts.map fun (part, text) => part ++ '=' :: text) ++ [')']

def Count.description : Count → List Char
  | literal n => recordText "IntLiteral".toList [("value".toList, natText n)]
  | argument position =>
    recordText "ArgumentRef".toList [("position".toList, optionText natText position)]

def Spec.description (s : Spec) : List Char :=
  recordText "FormatSpec".toList [
    ("fill".toList, Quoted.literal s.fill),
    ("align".toList, optionText (fun a => memberText "Align".toList a.member [a.glyph]) s.align),
    ("sign".toList, memberText "Sign".toList s.sign.member s.sign.glyph?.toList),
    ("alternate".toList, flagText s.alternate),
    ("zero_pad".toList, flagText s.zeroPad),
    ("width".toList, s.width.description),
    ("precision".toList, optionText Count.description s.precision),
    ("type".toList, memberText "ConvType".toList s.conversion.member s.conversion.letter?.toList),
    ("case".toList, memberText "Case".toList s.case.member s.case.name)]

def Field.description (f : Field) : List Char :=
  recordText "ReplacementField".toList [
    ("position".toList, optionText natText f.position),
    ("spec".toList, f.spec.description)]

def Event.message (heap : Heap) : Event → Except Failure (List Char)
  | read source offset field =>
    .ok ("parsed field ".toList ++ Quoted.literal source ++ " at ".toList ++ natText offset ++
      ": ".toList ++ field.description)
  | taken role index v => do
    return role.name ++ " -> argument ".toList ++ natText index ++ ": ".toList ++ (← v.literal heap)

def Event.channel : Event → List Char
  | read .. => "brace_fmt.parser".toList
  | taken .. => "brace_fmt.engine".toList

structure Record (Level : Type) where
  channel : List Char
  level : Level
  message : List Char
  deriving DecidableEq

/-- What takes the records. A level is set for the whole of a log, and records are delivered or not
according to it and to their own level. -/
structure Log (Level : Type) where
  debug : Level
  delivers : (set level : Level) → Bool

section Logged

variable {Level : Type} (log : Log Level)

def Event.record (heap : Heap) (event : Event) : Except Failure (Record Level) := do
  return ⟨event.channel, log.debug, ← event.message heap⟩

def Registry.formatLogged (level : Level) (heap : Heap) (args : List Value) (registry : Registry)
    (template : List Char) : Except Failure (List (Record Level) × Except Failure Text) := do
  let (events, result) := trace heap args registry template
  let delivered := events.filter fun _ => log.delivers level log.debug
  return (← delivered.mapM (Event.record log heap), result)

end Logged

end Stencil
