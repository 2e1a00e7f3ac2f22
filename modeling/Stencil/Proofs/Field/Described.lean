import Stencil.Run.Journal

/-! # The words for a field

A field is described by all of its parts, each under its name. Those that are one of a few choices
have fixed words.
-/

namespace Stencil

def Align.words : Align → List Char
  | left => "<Align.LEFT: '<'>".toList
  | right => "<Align.RIGHT: '>'>".toList
  | center => "<Align.CENTER: '^'>".toList
  | afterSign => "<Align.AFTER_SIGN: '='>".toList

def Sign.words : Sign → List Char
  | unset => "<Sign.NONE: ''>".toList
  | minus => "<Sign.MINUS: '-'>".toList
  | plus => "<Sign.PLUS: '+'>".toList
  | space => "<Sign.SPACE: ' '>".toList

def Conversion.words : Conversion → List Char
  | standard => "<ConvType.NONE: ''>".toList
  | decimal => "<ConvType.DECIMAL: 'd'>".toList
  | binary => "<ConvType.BINARY: 'b'>".toList
  | octal => "<ConvType.OCTAL: 'o'>".toList
  | hex => "<ConvType.HEX: 'x'>".toList
  | scientific => "<ConvType.SCIENTIFIC: 'e'>".toList
  | fixed => "<ConvType.FIXED: 'f'>".toList
  | general => "<ConvType.GENERAL: 'g'>".toList
  | percent => "<ConvType.PERCENT: '%'>".toList
  | string => "<ConvType.STRING: 's'>".toList
  | char => "<ConvType.CHAR: 'c'>".toList
  | debug => "<ConvType.DEBUG: '?'>".toList

def Case.words : Case → List Char
  | lower => "<Case.LOWER: 'lower'>".toList
  | upper => "<Case.UPPER: 'upper'>".toList

def Count.words : Count → List Char
  | literal n => "IntLiteral(value=".toList ++ natText n ++ ")".toList
  | argument position =>
    "ArgumentRef(position=".toList ++ position.elim "None".toList natText ++ ")".toList

/-- The words for all parts of a field, in the order in which they are named. -/
def Field.words (f : Field) : List Char :=
  "ReplacementField(position=".toList ++ f.position.elim "None".toList natText ++
  ", spec=FormatSpec(fill=".toList ++ Quoted.literal f.spec.fill ++
  ", align=".toList ++ f.spec.align.elim "None".toList (·.words) ++
  ", sign=".toList ++ f.spec.sign.words ++
  ", alternate=".toList ++ (if f.spec.alternate then "True" else "False").toList ++
  ", zero_pad=".toList ++ (if f.spec.zeroPad then "True" else "False").toList ++
  ", width=".toList ++ f.spec.width.words ++
  ", precision=".toList ++ f.spec.precision.elim "None".toList Count.words ++
  ", type=".toList ++ f.spec.conversion.words ++
  ", case=".toList ++ f.spec.case.words ++ "))".toList

theorem Align.memberText_eq_words (a : Align) :
    memberText "Align".toList a.member [a.glyph] = a.words := by
  cases a <;> decide

theorem Sign.memberText_eq_words (s : Sign) :
    memberText "Sign".toList s.member s.glyph?.toList = s.words := by
  cases s <;> decide

theorem Conversion.memberText_eq_words (c : Conversion) :
    memberText "ConvType".toList c.member c.letter?.toList = c.words := by
  cases c <;> decide

theorem Case.memberText_eq_words (c : Case) :
    memberText "Case".toList c.member c.name = c.words := by
  cases c <;> decide

theorem optionText_eq_elim {α : Type} (text : α → List Char) (a : Option α) :
    optionText text a = a.elim "None".toList text := by
  cases a <;> rfl

theorem flagText_eq (b : Bool) : flagText b = (if b then "True" else "False").toList := by
  cases b <;> rfl

theorem recordText_cons (name part text : List Char) (rest : List (List Char × List Char)) :
    recordText name ((part, text) :: rest) = name ++ '(' :: (part ++ '=' :: (text ++
      (rest.flatMap (fun (part, text) => ", ".toList ++ part ++ '=' :: text) ++ [')']))) := by
  simp [recordText, commaSeparated, intercalate_cons, List.flatMap_map]

theorem Count.description_eq_words (c : Count) : c.description = c.words := by
  cases c with
  | literal n =>
    change _ = "IntLiteral(value=".toList ++ natText n ++ ")".toList
    simp only [description, recordText_cons, List.flatMap_nil, String.reduceToList,
      List.cons_append, List.nil_append]
  | argument position =>
    change _ = "ArgumentRef(position=".toList ++ position.elim "None".toList natText ++ ")".toList
    simp only [description, optionText_eq_elim, recordText_cons, List.flatMap_nil,
      String.reduceToList, List.cons_append, List.nil_append]

theorem Field.description_eq_words (f : Field) : f.description = f.words := by
  simp only [description, Spec.description, optionText_eq_elim, flagText_eq,
    Align.memberText_eq_words, Sign.memberText_eq_words, Conversion.memberText_eq_words,
    Case.memberText_eq_words, funext Count.description_eq_words]
  unfold words
  simp only [recordText_cons, List.flatMap_cons, List.flatMap_nil, String.reduceToList,
    List.cons_append, List.nil_append, List.append_assoc]

end Stencil
