import SmingCoap.Wire.LittleEndian

/-! # Numbers in byte memory

A machine keeps a number in several bytes, lowest first.  `load` reads one and
`put` writes one; `loadInt16` and `putInt16` do so for 16 bit numbers with a
sign.  A number is read back as it was written (`load_put`, `loadInt16_putInt16`),
and one that shares no byte with it is what it was (`load_put_apart`,
`load_putInt16_apart` and so on).
-/

namespace Wire

/-- What of a number is left in 16 bits with a sign. -/
def int16 (value : Int) : Int := (value + 32768) % 65536 - 32768

theorem int16_eq {value : Int} (low : -32768 ≤ value) (high : value < 32768) : int16 value = value := by
  unfold int16
  omega

theorem int16_bounds (value : Int) : -32768 ≤ int16 value ∧ int16 value < 32768 := by
  unfold int16
  omega

namespace Memory

/-- The number in the `width` bytes from an address on. -/
def load (memory : Memory) (width address : Nat) : Nat := littleEndian (memory.bytes address width)

/-- `width` bytes of a number go to an address. -/
def put (memory : Memory) (width address value : Nat) : Memory := memory.copy address (digits value width)

def loadInt16 (memory : Memory) (address : Nat) : Int := int16 (memory.load 2 address)

def putInt16 (memory : Memory) (address : Nat) (value : Int) : Memory :=
  memory.put 2 address (value % 65536).toNat

section
variable {memory other : Memory} {width address target span value : Nat}

theorem put_outside {i : Nat} (outside : i < address ∨ address + width ≤ i) :
    memory.put width address value i = memory i :=
  copy_outside memory (by rwa [length_digits])

theorem putInt16_outside {i : Nat} {value : Int} (outside : i < address ∨ address + 2 ≤ i) :
    memory.putInt16 address value i = memory i :=
  put_outside outside

theorem load_congr (agree : ∀ i, address ≤ i → i < address + width → other i = memory i) :
    other.load width address = memory.load width address :=
  congrArg littleEndian (bytes_congr agree)

theorem loadInt16_congr (agree : ∀ i, address ≤ i → i < address + 2 → other i = memory i) :
    other.loadInt16 address = memory.loadInt16 address :=
  congrArg (fun number : Nat => int16 number) (load_congr agree)

theorem load_put (fits : value < 256 ^ width) : (memory.put width address value).load width address = value := by
  rw [load, put, (copy_holds memory address (digits value width)).eq_bytes (length_digits value width),
    littleEndian_digits fits]

theorem loadInt16_putInt16 (value : Int) : (memory.putInt16 address value).loadInt16 address = int16 value := by
  have fits : (value % 65536).toNat < 256 ^ 2 := by omega
  rw [loadInt16, putInt16, load_put fits]
  unfold int16
  omega

theorem load_put_apart (apart : address + width ≤ target ∨ target + span ≤ address) :
    (memory.put span target value).load width address = memory.load width address :=
  load_congr fun i low high => put_outside (by omega)

theorem load_putInt16_apart {value : Int} (apart : address + width ≤ target ∨ target + 2 ≤ address) :
    (memory.putInt16 target value).load width address = memory.load width address :=
  load_put_apart apart

theorem loadInt16_put_apart (apart : address + 2 ≤ target ∨ target + span ≤ address) :
    (memory.put span target value).loadInt16 address = memory.loadInt16 address :=
  loadInt16_congr fun i low high => put_outside (by omega)

theorem loadInt16_putInt16_apart {value : Int} (apart : address + 2 ≤ target ∨ target + 2 ≤ address) :
    (memory.putInt16 target value).loadInt16 address = memory.loadInt16 address :=
  loadInt16_put_apart apart

end

/-- The first of the bytes that lie at an address. -/
theorem Holds.take {memory : Memory} {base length : Nat} {content : List UInt8} (holds : memory.Holds base content)
    (within : length ≤ content.length) : memory.bytes base length = content.take length := by
  have split := bytes_add memory base length (content.length - length)
  rw [Nat.add_sub_cancel' within, holds.eq_bytes rfl] at split
  rw [split, List.take_left' (length_bytes ..)]

theorem loadInt16_bounds (memory : Memory) (address : Nat) :
    -32768 ≤ memory.loadInt16 address ∧ memory.loadInt16 address < 32768 :=
  int16_bounds _

/-- A number that is zero begins with a zero byte. -/
theorem loadInt16_eq_zero {memory : Memory} {address : Nat} (zero : memory.loadInt16 address = 0) : memory address = 0 := by
  have low := (memory address).toNat_lt
  have high := (memory (address + 1)).toNat_lt
  simp only [loadInt16, load, bytes, littleEndian, int16] at zero
  apply UInt8.toNat_inj.mp
  rw [UInt8.toNat_zero]
  omega

end Memory

end Wire
