import Boardwright.Failure

/-!
# Tokens

A source text is a list of tokens. Most tokens are words of the text; the ends of
lines and the changes of indentation are tokens too, and the last one ends the text.
-/

namespace Boardwright.Syntax

/-- The sorts of token. -/
inductive Kind
  | string | number
  | componentWord | moduleWord | interfaceWord | pinWord | signalWord | newWord | fromWord | importWord | toWord | eqnWord
  | trueWord | falseWord
  | equation | newline | name | plusMinus
  | percent | dot | ellipsis | star | openParen | closeParen | comma | colon | semicolon
  | power | assign | openBrack | closeBrack | bar | caret | ampersand | leftShift | rightShift
  | plus | minus | slash | doubleSlash | tilde | openBrace | closeBrace | less | greater
  | equals | atLeast | atMost | lessGreater | bangEquals | at | arrow
  | plusAssign | minusAssign | starAssign | atAssign | slashAssign | ampersandAssign | barAssign
  | caretAssign | leftShiftAssign | rightShiftAssign | powerAssign | doubleSlashAssign
  | unknown | indent | dedent | eof
  deriving Repr, DecidableEq, Inhabited

/-- A token with its text and the place where it was made. -/
structure Token where
  kind : Kind
  text : String
  pos : Pos
  deriving Repr, DecidableEq, Inhabited

/-- The words with a meaning of their own. -/
def keywords : List (String × Kind) :=
  [("component", .componentWord), ("module", .moduleWord), ("interface", .interfaceWord), ("pin", .pinWord),
   ("signal", .signalWord), ("new", .newWord), ("from", .fromWord), ("import", .importWord), ("to", .toWord),
   ("eqn", .eqnWord), ("True", .trueWord), ("False", .falseWord)]

def marks : List (String × Kind) :=
  [("+/-", .plusMinus), ("±", .plusMinus), ("%", .percent), (".", .dot), ("...", .ellipsis),
   ("*", .star), ("(", .openParen), (")", .closeParen), (",", .comma), (":", .colon),
   (";", .semicolon), ("**", .power), ("=", .assign), ("[", .openBrack), ("]", .closeBrack),
   ("|", .bar), ("^", .caret), ("&", .ampersand), ("<<", .leftShift), (">>", .rightShift),
   ("+", .plus), ("-", .minus), ("/", .slash), ("//", .doubleSlash), ("~", .tilde),
   ("\x7b", .openBrace), ("\x7d", .closeBrace), ("<", .less), (">", .greater), ("==", .equals),
   (">=", .atLeast), ("<=", .atMost), ("<>", .lessGreater), ("!=", .bangEquals), ("@", .at),
   ("->", .arrow), ("+=", .plusAssign), ("-=", .minusAssign), ("*=", .starAssign),
   ("@=", .atAssign), ("/=", .slashAssign), ("&=", .ampersandAssign), ("|=", .barAssign),
   ("^=", .caretAssign), ("<<=", .leftShiftAssign), (">>=", .rightShiftAssign),
   ("**=", .powerAssign), ("//=", .doubleSlashAssign)]

/-- The name of a sort of token in the grammar. -/
def Kind.label : Kind → String
  | .string => "STRING"
  | .number => "NUMBER"
  | .componentWord => "COMPONENT"
  | .moduleWord => "MODULE"
  | .interfaceWord => "INTERFACE"
  | .pinWord => "PIN"
  | .signalWord => "SIGNAL"
  | .newWord => "NEW"
  | .fromWord => "FROM"
  | .importWord => "IMPORT"
  | .toWord => "TO"
  | .eqnWord => "EQN"
  | .trueWord => "TRUE"
  | .falseWord => "FALSE"
  | .equation => "EQUATION_STRING"
  | .newline => "NEWLINE"
  | .name => "NAME"
  | .plusMinus => "PLUS_OR_MINUS"
  | .percent => "PERCENT"
  | .dot => "DOT"
  | .ellipsis => "ELLIPSIS"
  | .star => "STAR"
  | .openParen => "OPEN_PAREN"
  | .closeParen => "CLOSE_PAREN"
  | .comma => "COMMA"
  | .colon => "COLON"
  | .semicolon => "SEMI_COLON"
  | .power => "POWER"
  | .assign => "ASSIGN"
  | .openBrack => "OPEN_BRACK"
  | .closeBrack => "CLOSE_BRACK"
  | .bar => "OR_OP"
  | .caret => "XOR"
  | .ampersand => "AND_OP"
  | .leftShift => "LEFT_SHIFT"
  | .rightShift => "RIGHT_SHIFT"
  | .plus => "ADD"
  | .minus => "MINUS"
  | .slash => "DIV"
  | .doubleSlash => "IDIV"
  | .tilde => "NOT_OP"
  | .openBrace => "OPEN_BRACE"
  | .closeBrace => "CLOSE_BRACE"
  | .less => "LESS_THAN"
  | .greater => "GREATER_THAN"
  | .equals => "EQUALS"
  | .atLeast => "GT_EQ"
  | .atMost => "LT_EQ"
  | .lessGreater => "NOT_EQ_1"
  | .bangEquals => "NOT_EQ_2"
  | .at => "AT"
  | .arrow => "ARROW"
  | .plusAssign => "ADD_ASSIGN"
  | .minusAssign => "SUB_ASSIGN"
  | .starAssign => "MULT_ASSIGN"
  | .atAssign => "AT_ASSIGN"
  | .slashAssign => "DIV_ASSIGN"
  | .ampersandAssign => "AND_ASSIGN"
  | .barAssign => "OR_ASSIGN"
  | .caretAssign => "XOR_ASSIGN"
  | .leftShiftAssign => "LEFT_SHIFT_ASSIGN"
  | .rightShiftAssign => "RIGHT_SHIFT_ASSIGN"
  | .powerAssign => "POWER_ASSIGN"
  | .doubleSlashAssign => "IDIV_ASSIGN"
  | .unknown => "UNKNOWN_CHAR"
  | .indent => "INDENT"
  | .dedent => "DEDENT"
  | .eof => "EOF"

end Boardwright.Syntax
