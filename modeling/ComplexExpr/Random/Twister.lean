import ComplexExpr.Random.Source

/-!
# The twisted generator MT19937

A state of 624 words of 32 bits, filled from a whole number (`Twister.ofSeed`)
and renewed as a whole when all its words have been handed out (`Twister.word`).
A double takes 53 bits of two words.
-/

namespace ComplexExpr

/-- The state of the generator, and how many of its words have been handed out. -/
structure Twister where
  words : Array UInt32
  used : Nat

namespace Twister

/-- The number of words of a state. -/
def size : Nat := 624

/-- A state filled from one word. -/
def fill (seed : UInt32) : Array UInt32 :=
  (List.range (size - 1)).foldl (fun ws i =>
    let last := ws.back?.getD 0
    ws.push ((1812433253 : UInt32) * (last ^^^ (last >>> 30)) + (i + 1).toUInt32)) #[seed]

/-- The word at `i`. -/
def wordAt (ws : Array UInt32) (i : Nat) : UInt32 := ws[i]?.getD 0

/-- One step of mixing at place `i` from 1 to 623: the new word comes from its old value and the
word before it. A round ends by copying the last word to the front. -/
def mixAt (f : UInt32 → UInt32 → UInt32) (ws : Array UInt32) (i : Nat) : Array UInt32 :=
  let before := wordAt ws (i - 1)
  let ws := ws.set! i (f (wordAt ws i) (before ^^^ (before >>> 30)))
  if i = size - 1 then ws.set! 0 (wordAt ws i) else ws

/-- The place of the `n`-th step of mixing: 1 to 623, again and again. -/
def place (n : Nat) : Nat := n % (size - 1) + 1

/-- A state filled from a row of words: the words are mixed in, and then the places. -/
def ofKey (key : Array UInt32) : Twister :=
  let rounds := max size key.size
  let ws := (List.range rounds).foldl (fun ws n =>
    let j := n % key.size
    mixAt (fun w x => (w ^^^ (x * 1664525)) + wordAt key j + j.toUInt32) ws (place n))
    (fill 19650218)
  let ws := (List.range (size - 1)).foldl (fun ws n =>
    let i := place (rounds + n)
    mixAt (fun w x => (w ^^^ (x * 1566083941)) - i.toUInt32) ws i) ws
  ⟨ws.set! 0 0x80000000, size⟩

/-- The words of a number, the lowest first. -/
def digits (n : Nat) : List UInt32 :=
  if n < UInt32.size then [n.toUInt32]
  else (n % UInt32.size).toUInt32 :: digits (n / UInt32.size)
termination_by n
decreasing_by
  have hsize : 0 < UInt32.size := by decide
  exact Nat.div_lt_self (Nat.lt_of_lt_of_le hsize (Nat.le_of_not_lt ‹_›)) (by decide)

/-- The generator that a whole number starts; its sign does not matter. -/
def ofSeed (seed : Int) : Twister := ofKey (digits seed.natAbs).toArray

/-- The word that renews place `i`, from the upper bit of its word, the lower bits of the next
one, and the word 397 places on. -/
def renewed (ws : Array UInt32) (i : Nat) : UInt32 :=
  let y := (wordAt ws i &&& 0x80000000) ||| (wordAt ws ((i + 1) % size) &&& 0x7FFFFFFF)
  wordAt ws ((i + 397) % size) ^^^ (y >>> 1) ^^^ (if y &&& 1 = 1 then 0x9908B0DF else 0)

/-- All words renewed, in their order. -/
def renew (ws : Array UInt32) : Array UInt32 :=
  (List.range size).foldl (fun ws i => ws.set! i (renewed ws i)) ws

/-- The bits of a word mixed for handing out. -/
def temper (y : UInt32) : UInt32 :=
  let y := y ^^^ (y >>> 11)
  let y := y ^^^ ((y <<< 7) &&& 0x9D2C5680)
  let y := y ^^^ ((y <<< 15) &&& 0xEFC60000)
  y ^^^ (y >>> 18)

/-- The next word. -/
def word (t : Twister) : UInt32 × Twister :=
  let t := if t.used < size then t else ⟨renew t.words, 0⟩
  (temper (wordAt t.words t.used), { t with used := t.used + 1 })

/-- The double of 27 bits of one word and 26 bits of the next. -/
def next (t : Twister) : Float × Twister :=
  let (a, t) := t.word
  let (b, t) := t.word
  ((Float.ofNat (a >>> 5).toNat * 67108864.0 + Float.ofNat (b >>> 6).toNat) / 9007199254740992.0, t)

instance : Source Twister := ⟨next⟩

end Twister

end ComplexExpr
