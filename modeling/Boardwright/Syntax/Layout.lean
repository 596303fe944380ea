import Boardwright.Syntax.Lexeme

/-!
# Layout

The indentation of a line says which block it belongs to. The layout of a text is
kept while its lexemes are read: the widths of the indentations that are open, how
many brackets are, and the place that has been reached. At the end of a line a token
is made for it and for each indentation that is opened or closed there, unless a
bracket is open, or the next line is empty or holds only a comment; but at the last
character of a text a line always ends. Tabs go to the next multiple of eight.

A line that goes back to a width between two that are open closes the wider one and
opens none. The tokens that the layout makes stand where the text has been read to.
-/

namespace Boardwright.Syntax

/-- What has been read of a text so far: the place, the open indentations from the
innermost outwards, the open brackets, and the last character. -/
structure Layout where
  pos : Pos := ⟨1, 0⟩
  indents : List Nat := []
  brackets : Int := 0
  last : String := ""
  deriving Repr, DecidableEq

namespace Layout

def width (spaces : List Char) : Nat :=
  spaces.foldl (fun n c => if c == '\t' then n + (8 - n % 8) else n + 1) 0

/-- The width of the innermost open indentation. -/
def current (l : Layout) : Nat := l.indents.headD 0

def advance (l : Layout) (text : List Char) : Layout :=
  { l with
    pos := text.foldl Pos.after l.pos
    last := match text.getLast? with
      | some c => String.ofList [c]
      | none => l.last }

/-- Whether the end of a line is passed over because of what follows it. -/
def passes (l : Layout) (ahead : List Char) : Bool :=
  0 < l.brackets ||
    match ahead with
    | [c, _] => c == '\n' || c == '\r' || c == '#'
    | _ => false

/-- The text of the token for the end of a line: the last characters of the lexeme,
as many as the mark that ended the line has, and at least one. -/
def lineEndText (text : List Char) : String :=
  let n := max 1 (text.countP Lexeme.isBreak)
  String.ofList (text.drop (text.length - n))

/-- The tokens for the indentations wider than `n` that are closed at a place, and
those that stay open. -/
def close (pos : Pos) (n : Nat) : List Nat → List Token × List Nat
  | [] => ([], [])
  | w :: ws =>
    if n < w then
      let (ts, rest) := close pos n ws
      (⟨.dedent, "", pos⟩ :: ts, rest)
    else ([], w :: ws)

def endLine (l : Layout) (text ahead : List Char) : Layout × List Token :=
  let l := l.advance text
  if l.passes ahead then (l, [])
  else
    let line : Token := ⟨.newline, lineEndText text, l.pos⟩
    let spaces := text.filter fun c => !Lexeme.isBreak c
    let n := width spaces
    if n = l.current then (l, [line])
    else if l.current < n then
      ({ l with indents := n :: l.indents }, [line, ⟨.indent, String.ofList spaces, l.pos⟩])
    else
      let (ts, rest) := close l.pos n l.indents
      ({ l with indents := rest }, line :: ts)

def bracket : Kind → Int
  | .openParen | .openBrack | .openBrace => 1
  | .closeParen | .closeBrack | .closeBrace => -1
  | _ => 0

def step (l : Layout) (x : Lexeme) : Layout × List Token :=
  match x.rule with
  | .token kind =>
    ({ l.advance x.text with brackets := l.brackets + bracket kind },
      [⟨kind, String.ofList x.text, l.pos⟩])
  | .lineEnd => l.endLine x.text x.ahead
  | .skipped => (l.advance x.text, [])

/-- The tokens at the end of a text: if indentations are open, the last line is ended
and they are closed. -/
def finish (l : Layout) : List Token :=
  (if l.indents.isEmpty then []
    else ⟨.newline, l.last, l.pos⟩ :: (close l.pos 0 l.indents).1) ++ [⟨.eof, "<EOF>", l.pos⟩]

def tokensFrom : Layout → List Lexeme → List Token
  | l, [] => l.finish
  | l, x :: xs =>
    let (l', ts) := l.step x
    ts ++ tokensFrom l' xs

end Layout

def tokens (s : String) : List Token := Layout.tokensFrom {} (Lexeme.all s.toList)

end Boardwright.Syntax
