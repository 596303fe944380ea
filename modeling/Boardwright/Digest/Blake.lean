/-!
# A digest of sixteen bytes

The BLAKE2b hash of a text with a digest of sixteen bytes, and the identifier that
is written from it in groups of eight, four, four, four and twelve digits. The words
are of sixty-four bits and all additions wrap.
-/

namespace Boardwright.Digest

def start : Array UInt64 :=
  #[0x6a09e667f3bcc908, 0xbb67ae8584caa73b, 0x3c6ef372fe94f82b, 0xa54ff53a5f1d36f1,
    0x510e527fade682d1, 0x9b05688c2b3e6c1f, 0x1f83d9abfb41bd6b, 0x5be0cd19137e2179]

/-- The order in which the words of a block are mixed in, round by round. -/
def schedule : List (Array Nat) :=
  [#[0, 1, 2, 3, 4, 5, 6, 7, 8, 9, 10, 11, 12, 13, 14, 15],
   #[14, 10, 4, 8, 9, 15, 13, 6, 1, 12, 0, 2, 11, 7, 5, 3],
   #[11, 8, 12, 0, 5, 2, 15, 13, 10, 14, 3, 6, 7, 1, 9, 4],
   #[7, 9, 3, 1, 13, 12, 11, 14, 2, 6, 5, 10, 4, 0, 15, 8],
   #[9, 0, 5, 7, 2, 4, 10, 15, 14, 1, 11, 12, 6, 8, 3, 13],
   #[2, 12, 6, 10, 0, 11, 8, 3, 4, 13, 7, 5, 15, 14, 1, 9],
   #[12, 5, 1, 15, 14, 13, 4, 10, 0, 7, 6, 3, 9, 2, 8, 11],
   #[13, 11, 7, 14, 12, 1, 3, 9, 5, 0, 15, 4, 8, 6, 2, 10],
   #[6, 15, 14, 9, 11, 3, 0, 8, 12, 2, 13, 7, 1, 4, 10, 5],
   #[10, 2, 8, 4, 7, 6, 1, 5, 15, 11, 9, 14, 3, 12, 13, 0],
   #[0, 1, 2, 3, 4, 5, 6, 7, 8, 9, 10, 11, 12, 13, 14, 15],
   #[14, 10, 4, 8, 9, 15, 13, 6, 1, 12, 0, 2, 11, 7, 5, 3]]

/-- A word turned right by `n` bits. -/
def turn (x : UInt64) (n : UInt64) : UInt64 := (x >>> n) ||| (x <<< (64 - n))

def word (v : Array UInt64) (i : Nat) : UInt64 := v.getD i 0

/-- Four words mixed with two words of a block. -/
def mix (v : Array UInt64) (a b c d : Nat) (x y : UInt64) : Array UInt64 :=
  let va := word v a + word v b + x
  let vd := turn (word v d ^^^ va) 32
  let vc := word v c + vd
  let vb := turn (word v b ^^^ vc) 24
  let va := va + vb + y
  let vd := turn (vd ^^^ va) 16
  let vc := vc + vd
  let vb := turn (vb ^^^ vc) 63
  (((v.setIfInBounds a va).setIfInBounds b vb).setIfInBounds c vc).setIfInBounds d vd

/-- The words that are mixed together in one round: the columns, then the diagonals. -/
def quarters : List (Nat × Nat × Nat × Nat) :=
  [(0, 4, 8, 12), (1, 5, 9, 13), (2, 6, 10, 14), (3, 7, 11, 15),
   (0, 5, 10, 15), (1, 6, 11, 12), (2, 7, 8, 13), (3, 4, 9, 14)]

def round (m : Array UInt64) (v : Array UInt64) (s : Array Nat) : Array UInt64 :=
  quarters.zipIdx.foldl (fun v ((a, b, c, d), i) =>
    mix v a b c d (word m (s.getD (2 * i) 0)) (word m (s.getD (2 * i + 1) 0))) v

/-- The digest after one more block; `count` bytes have been read with it, and `last`
says whether it ends the text. -/
def compress (h m : Array UInt64) (count : Nat) (last : Bool) : Array UInt64 :=
  let v := h ++ start
  let v := v.setIfInBounds 12 (word v 12 ^^^ count.toUInt64)
  let v := if last then v.setIfInBounds 14 (word v 14 ^^^ 0xffffffffffffffff) else v
  let v := schedule.foldl (round m) v
  ((List.range 8).map fun i => word h i ^^^ word v i ^^^ word v (i + 8)).toArray

/-- The words of a block of bytes, the first byte being the lowest. -/
def words (block : List UInt8) : Array UInt64 :=
  ((List.range 16).map fun i =>
    ((block.drop (8 * i)).take 8).foldr (fun b n => n * 256 + b.toUInt64) 0).toArray

def absorb : Nat → Array UInt64 → List UInt8 → Nat → Array UInt64
  | 0, h, _, _ => h
  | fuel + 1, h, bytes, count =>
    if bytes.length ≤ 128 then
      compress h (words (bytes ++ List.replicate (128 - bytes.length) 0)) (count + bytes.length) true
    else absorb fuel (compress h (words (bytes.take 128)) (count + 128) false) (bytes.drop 128)
      (count + 128)

def digest (bytes : List UInt8) : List UInt64 :=
  let h := start.setIfInBounds 0 (word start 0 ^^^ 0x01010010)
  let r := absorb (bytes.length / 128 + 1) h bytes 0
  [word r 0, word r 1]

def wordBytes (x : UInt64) : List Nat := (List.range 8).map fun i => x.toNat / Nat.pow 256 i % 256

/-- A byte as two digits. -/
def hex (n : Nat) : List Char := [Nat.digitChar (n / 16), Nat.digitChar (n % 16)]

def identifier (s : String) : String :=
  let cs := ((digest s.toUTF8.toList).flatMap wordBytes).flatMap hex
  String.ofList (cs.take 8 ++ '-' :: (cs.drop 8).take 4 ++ '-' :: (cs.drop 12).take 4 ++
    '-' :: (cs.drop 16).take 4 ++ '-' :: cs.drop 20)

end Boardwright.Digest
