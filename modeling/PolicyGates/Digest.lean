/-!
# SHA-256

The digest that links the audit log together and names proposals: the UTF-8 bytes of a text,
padded to whole blocks of 64 bytes, are folded block by block into eight 32-bit words,
which are written in lower-case hexadecimal.
-/
namespace PolicyGates.Digest

/-- The first 32 bits of the fractional parts of the cube roots of the first 64 primes. -/
def roundConstants : List UInt32 :=
  [0x428a2f98, 0x71374491, 0xb5c0fbcf, 0xe9b5dba5, 0x3956c25b, 0x59f111f1, 0x923f82a4, 0xab1c5ed5,
   0xd807aa98, 0x12835b01, 0x243185be, 0x550c7dc3, 0x72be5d74, 0x80deb1fe, 0x9bdc06a7, 0xc19bf174,
   0xe49b69c1, 0xefbe4786, 0x0fc19dc6, 0x240ca1cc, 0x2de92c6f, 0x4a7484aa, 0x5cb0a9dc, 0x76f988da,
   0x983e5152, 0xa831c66d, 0xb00327c8, 0xbf597fc7, 0xc6e00bf3, 0xd5a79147, 0x06ca6351, 0x14292967,
   0x27b70a85, 0x2e1b2138, 0x4d2c6dfc, 0x53380d13, 0x650a7354, 0x766a0abb, 0x81c2c92e, 0x92722c85,
   0xa2bfe8a1, 0xa81a664b, 0xc24b8b70, 0xc76c51a3, 0xd192e819, 0xd6990624, 0xf40e3585, 0x106aa070,
   0x19a4c116, 0x1e376c08, 0x2748774c, 0x34b0bcb5, 0x391c0cb3, 0x4ed8aa4a, 0x5b9cca4f, 0x682e6ff3,
   0x748f82ee, 0x78a5636f, 0x84c87814, 0x8cc70208, 0x90befffa, 0xa4506ceb, 0xbef9a3f7, 0xc67178f2]

/-- The eight words that a digest is made of. -/
structure State where
  a : UInt32
  b : UInt32
  c : UInt32
  d : UInt32
  e : UInt32
  f : UInt32
  g : UInt32
  h : UInt32

/-- The first 32 bits of the fractional parts of the square roots of the first eight primes. -/
def State.initial : State :=
  ⟨0x6a09e667, 0xbb67ae85, 0x3c6ef372, 0xa54ff53a, 0x510e527f, 0x9b05688c, 0x1f83d9ab, 0x5be0cd19⟩

def State.words (s : State) : List UInt32 := [s.a, s.b, s.c, s.d, s.e, s.f, s.g, s.h]

def State.add (s t : State) : State :=
  ⟨s.a + t.a, s.b + t.b, s.c + t.c, s.d + t.d, s.e + t.e, s.f + t.f, s.g + t.g, s.h + t.h⟩

/-- Rotation to the right by fewer than 32 places. -/
def rotate (x : UInt32) (n : UInt32) : UInt32 := (x >>> n) ||| (x <<< (32 - n))

/-- One round with its constant and its word of the schedule. -/
def State.round (s : State) (k w : UInt32) : State :=
  let mixE := rotate s.e 6 ^^^ rotate s.e 11 ^^^ rotate s.e 25
  let choice := (s.e &&& s.f) ^^^ (~~~s.e &&& s.g)
  let t1 := s.h + mixE + choice + k + w
  let mixA := rotate s.a 2 ^^^ rotate s.a 13 ^^^ rotate s.a 22
  let majority := (s.a &&& s.b) ^^^ (s.a &&& s.c) ^^^ (s.b &&& s.c)
  ⟨t1 + (mixA + majority), s.a, s.b, s.c, s.d + t1, s.e, s.f, s.g⟩

/-- The next word of a schedule, from the last sixteen. -/
def nextWord (ws : Array UInt32) : UInt32 :=
  let back (n : Nat) : UInt32 := ws.getD (ws.size - n) 0
  let u := back 15
  let v := back 2
  back 16 + (rotate u 7 ^^^ rotate u 18 ^^^ (u >>> 3)) + back 7
    + (rotate v 17 ^^^ rotate v 19 ^^^ (v >>> 10))

/-- The sixteen words of a block grown to sixty-four. -/
def schedule (block : Array UInt32) : Array UInt32 :=
  (List.range 48).foldl (fun ws _ => ws.push (nextWord ws)) block

def State.absorb (s : State) (block : Array UInt32) : State :=
  s.add ((roundConstants.zip (schedule block).toList).foldl (fun t kw => t.round kw.1 kw.2) s)

/-- The bytes of a number, the highest first. -/
def bigEndian (count n : Nat) : List UInt8 :=
  (List.range count).map (fun i => UInt8.ofNat (n / Nat.pow 256 (count - 1 - i)))

/-- The bytes, a single bit, as few zeros as fill whole blocks, and the length in bits. -/
def pad (bytes : List UInt8) : Array UInt8 :=
  let zeros := (55 + 64 - bytes.length % 64) % 64
  (bytes ++ 0x80 :: (List.replicate zeros 0 ++ bigEndian 8 (8 * bytes.length))).toArray

def block (padded : Array UInt8) (n : Nat) : Array UInt32 :=
  let byte (i : Nat) : UInt32 := (padded.getD i 0).toUInt32
  ((List.range 16).map (fun j =>
    let i := 64 * n + 4 * j
    byte i <<< 24 ||| byte (i + 1) <<< 16 ||| byte (i + 2) <<< 8 ||| byte (i + 3))).toArray

def digest (bytes : List UInt8) : State :=
  let padded := pad bytes
  (List.range (padded.size / 64)).foldl (fun s n => s.absorb (block padded n)) State.initial

/-- A word in eight lower-case hexadecimal digits. -/
def wordText (w : UInt32) : List Char :=
  (List.range 8).map (fun i => Nat.digitChar (w.toNat / Nat.pow 16 (7 - i) % 16))

def sha256 (s : String) : String :=
  String.ofList ((digest s.toUTF8.toList).words.flatMap wordText)

end PolicyGates.Digest
