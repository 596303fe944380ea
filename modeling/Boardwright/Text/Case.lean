import Boardwright.Text.Row

/-!
# Capital and small letters

The capital and small letters of all scripts, and the letters that they become in the
other case. A letter is moved to the other case by the shift of its row. A few letters
become more than one letter.
-/

namespace Boardwright.Text

/-- A row of letters, how far away the letter is that each becomes, and the letters that follow
this one then. -/
abbrev Recasing : Type := Row × Int × List Nat

def shifts (table : List (Int × String)) : List Recasing :=
  table.flatMap fun (shift, t) => (rows t).map fun r => (r, shift, [])

/-- A table of rows, each with the letters that the first letter of the row becomes. -/
def words (table : String) : List Recasing :=
  (table.toList.splitOn ',').filterMap fun entry =>
    match Row.texts entry with
    | row :: n :: ns =>
      let r := Row.ofText 0 row
      some (r, Row.codePoint n - r.first, ns.map Row.codePoint)
    | _ => none

/-- The small letters that have no capital, and the marks that count as such. -/
def otherSmall : List Row := rows
  "4q g 3i 2d e f-1 f 4 2r j-5 s 3 2 3-2 3 2 3 6-1 2 3-1 2-6 2-1 2 3-2 7-4 2 2-7 3-p 8-1 v-4 46 3m
  9w 14 4mw-3c 2-2 2-f 2-1c 65-1 2 cy e h-c 32 4-1 4 s 5 5 3-1 9-3 27c 3 3-6 2v o1k-1 43-1 1r-8 m
  7 q 10 2 z-2 mu-y 2-6 2-c i6w 3-2 2-15 2-8 14dc-p r-6 2-h r-p r-3 2 2-6 2-a r-p r-p r-p r-p r-p
  r-p r-p r-p r-r t-o 2-5 r-o 2-5 r-o 2-5 r-o 2-5 r-o 2-5 2 1f9-9 2-j"

/-- The capitals that have no small letter, and the marks that count as such. -/
def otherCapital : List Row := rows
  "r6-2 5ri 5 4-2 3-2 3 4-4 7 4 4-1 3-1 2 b-1 6 2dvf-p r-p r-p r 2-1 3 3-1 3-3 2-7 r-p r-1 2-3 3-7
  2-6 s-1 2-3 2-4 2 4-6 s-p r-p r-p r-p r-p r-p v-o y-o y-o y-o y-o y 50m-p 7-p 7-p"

def smallMarks : List Row := rows
  "n9 5yj-f nl-p"

/-- What small letters become as capitals, the ones that become several letters first. -/
def toCapital : List Recasing := words
  "67 2b 2b, 95 jg 26, ds 22 lo, pc pl lk ld, q8 px lk ld, 13b 111 11u, 61i 20 mp, 61j 2c lk, 61k
  2f lm, 61l 2h lm, 61m 1t ji, 66o px lv, 66q px lv lc, 66s px lv ld, 66u px lv n6, 680-7 64o pl,
  688-7 64o pl, 68g-7 65k pl, 68o-7 65k pl, 68w-7 67c pl, 694-7 67c pl, 69e 69m pl, 69f pd pl,
  69g p2 pl, 69i pd n6, 69j pd n6 pl, 69o pd pl, 69u 6a2 pl, 69v pj pl, 69w p5 pl, 69y pj n6, 69z
  pj n6 pl, 6a4 pj pl, 6aa pl lk lc, 6ab pl lk ld, 6ae pl n6, 6af pl lk n6, 6aq px lk lc, 6ar px
  lk ld, 6as pt lv, 6au px n6, 6av px lk n6, 6b6 6be pl, 6b7 q1 pl, 6b8 pb pl, 6ba q1 n6, 6bb q1
  n6 pl, 6bg q1 pl, 1dkw 1y 1y, 1dkx 1y 21, 1dky 1y 24, 1dkz 1y 1y 21, 1dl0 1y 1y 24, 1dl1 2b 2c,
  1dl2 2b 2c, 1dlf 11g 11i, 1dlg 11g 111, 1dlh 11g 117, 1dli 11q 11i, 1dlj 11g 119" ++ shifts
  [(-32, "2p-p 2u-m 2-6 j7-g 2-8 2t-v 1dki-p 50m-v gw1-v"),
   (-1, "75:n 4:2 3:7 3:m 3:2 5:1 3 4 6 7 8:2 3 5 3 4:1 3 4 8 3 3 3:7 3:8 3 3 4:j 4:8 9 6 5:4 82:1 4
   2q:b 9 3 2u:g a:q 3:6 3:1b 4wi:22 c:1b hx 259 7:2 7 3 b:1d 9:1 5 nym:m k:d 3s:6 4:u b:1 3:4 5
   5:1 4:9 c:7 5:1 7 6:1 t"),
   (-2, "cm 3 3 13"),
   (-218, "hs 3 5"),
   (-64, "r0 1gc4-1e"),
   (-8, "rb 36p-5"),
   (7, "s2 5ir"),
   (-48, "129-11 7my-1b"),
   (3008, "3bk-16 3-2"),
   (8, "64g-7 9-5 b-7 9-7 9-5 c:3 9-7 21-1 v-1 f-1"),
   (-7264, "8w0-11 2 6"),
   (-40, "1fe0-13 3t-z"),
   (-39, "1fo7-a 2-e 2-6 2-1")] ++ words
  "51 po, 73 ag, 8h 21, an 2b, ao g3, b9 dy, be fx, bi f4, or-2 sd, cf dz, d9 b2, fz-1 8se, gg
  8rz, gh 8rx, gi 8s0, gj ap, gk au, gm-1 ax, gw b7, gp b3, gr b4, gs x4b, gx x4c, gz b8, h1 x3h,
  h2 x4a, h6 x4e, h4 bb, h5 ba, hb bg, h7 8rm, h8 x4d, hd 8ry, he bh, hh bj, hp 8ro, hu x51, hz
  x4h, i1 g4, i2-1 c1, i4 g5, ia c7, il x4i, im x4g, n9 pl, q4 p2, q5-2 p4, qq pv, r1-1 pa, r4
  pe, r5 pk, r9 py, ra ps, s0 pm, s1 pt, uo-f sg, s3 ov, s5 ph, y7 xs, 5mo sy, 5mp t0, 5mq ta,
  5mr-1 td, 5mt te, 5mu tm, 5mv v6, 5mw wui, 5tl x31, 5tp 8rn, 5u6 x52, 61n 600, 67k-1 69m, 67m-3
  6a0, 67q-1 6ai, 67s-1 6bc, 67u-1 6ay, 67w-1 6be, 69q pl, 6ku 6k2, 6ls-f 6lc, 79s-p 792, 8rp fu,
  8rq fy, x3o x50, xub x4j, xv4-27 3vk, 2oma-x 2olc"

/-- What capitals become as small letters: the letter that becomes the capital, but for a few. -/
def toSmall : List Recasing := words "8g 2x lj" ++ shifts
  [(2, "ck 3 3 13"), (1, "cl 3 3 13"), (-60, "s4"), (-7615, "61q"), (-8, "688-7 9-7 9-7"),
   (-9, "69o g 1c"), (-7517, "6jq"), (-8383, "6ju"), (-8262, "6jv")] ++
  toCapital.filterMap fun (r, shift, ns) =>
    if ns.isEmpty then some (⟨(r.first + shift).toNat, (r.last + shift).toNat, r.step⟩, -shift, [])
    else none

def hasCapital (c : Char) : Bool := toCapital.any (·.1.has c.toNat)

def hasSmall (c : Char) : Bool := toSmall.any (·.1.has c.toNat)

/-- Whether a letter is small. One that has both a capital and a small letter is a capital followed
by a small one, and neither of them. -/
def isSmall (c : Char) : Bool :=
  hasCapital c && !hasSmall c || otherSmall.any (·.has c.toNat)

def isCapital (c : Char) : Bool :=
  hasSmall c && !hasCapital c || otherCapital.any (·.has c.toNat)

def isSmallLetter (c : Char) : Bool := isSmall c && !smallMarks.any (·.has c.toNat)

def recased (table : List Recasing) (c : Char) : List Char :=
  match table.find? fun t => t.1.has c.toNat with
  | some (_, shift, ns) => Char.ofNat (c.toNat + shift).toNat :: ns.map Char.ofNat
  | none => [c]

def capital (c : Char) : List Char := recased toCapital c

def small (c : Char) : List Char := recased toSmall c

def capitals (s : String) : String := String.ofList (s.toList.flatMap capital)

def smalls (s : String) : String := String.ofList (s.toList.flatMap small)

/-- Whether a text has capital letters and no small ones. -/
def isAllCapital (s : List Char) : Bool :=
  s.any isCapital && s.all fun c => !isSmall c && !(hasCapital c && hasSmall c)

end Boardwright.Text
