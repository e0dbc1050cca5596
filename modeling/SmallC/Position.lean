/-!
# Positions

A position inside one text is a line and a column of sixteen bits each, which
together pack into one 32-bit word. A location names a line of a registered
file.
-/

namespace SmallC

/-- A line and a column, both counted from one; the default `[0:0]` stands for
no place at all. -/
structure Position where
  /-- The line. -/
  line : UInt16
  /-- The column, in characters. -/
  column : UInt16
  deriving DecidableEq, Inhabited, Repr

namespace Position

/-- The greatest value of sixteen bits that is not above `n`. -/
def clamp (n : Nat) : UInt16 := UInt16.ofNat (min n 65535)

/-- Clamping leaves a number as it is up to the greatest one of sixteen bits. -/
@[simp] theorem toNat_clamp (n : Nat) : (clamp n).toNat = min n 65535 := by
  rw [clamp, UInt16.toNat_ofNat', Nat.mod_eq_of_lt]
  omega

/-- The position of a line and a column of any size; what does not fit stays at
the last value that does. -/
def saturating (line column : Nat) : Position := ⟨clamp line, clamp column⟩

/-- The line in the high half of a word, the column in the low half. -/
def packed (p : Position) : UInt32 := UInt32.ofNat (p.line.toNat * 65536 + p.column.toNat)

/-- The position that a word packs. -/
def ofPacked (w : UInt32) : Position :=
  ⟨UInt16.ofNat (w.toNat / 65536), UInt16.ofNat (w.toNat % 65536)⟩

/-- The word of a position is its line shifted by sixteen bits, with its column added. -/
theorem toNat_packed (p : Position) :
    p.packed.toNat = p.line.toNat * 65536 + p.column.toNat := by
  have hline := p.line.toNat_lt
  have hcolumn := p.column.toNat_lt
  rw [packed, UInt32.toNat_ofNat', Nat.mod_eq_of_lt]
  omega

/-- Packing loses nothing. -/
@[simp] theorem ofPacked_packed (p : Position) : ofPacked p.packed = p := by
  rcases p with ⟨line, column⟩
  have hcolumn : column.toNat < 65536 := column.toNat_lt
  have hdiv : (line.toNat * 65536 + column.toNat) / 65536 = line.toNat := by omega
  have hmod : (line.toNat * 65536 + column.toNat) % 65536 = column.toNat := by omega
  simp [ofPacked, toNat_packed, hdiv, hmod]

/-- Every word is the packing of the position it packs. -/
@[simp] theorem packed_ofPacked (w : UInt32) : (ofPacked w).packed = w := by
  have hw := w.toNat_lt
  apply UInt32.toNat_inj.1
  rw [toNat_packed]
  simp only [ofPacked, UInt16.toNat_ofNat']
  omega

/-- The written form `[line:column]`. -/
def text (p : Position) : String := s!"[{p.line.toNat}:{p.column.toNat}]"

end Position

/-- A line of a file, the file given by its number in a registry. The line is at most the
number of lines of the file, so that 32 bits hold it in every file of fewer lines. -/
structure Location where
  /-- The number of the file. -/
  file : Nat
  /-- The line, counted from one. -/
  line : Nat
  /-- The column, counted from one. -/
  column : Nat
  deriving DecidableEq, Repr

/-- The location of nothing in particular: the first file, before its first line. -/
instance : Inhabited Location := ⟨⟨0, 0, 0⟩⟩

end SmallC
