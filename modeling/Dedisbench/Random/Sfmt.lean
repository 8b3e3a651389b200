import Dedisbench.Machine

/-!
# The random number generator

`utils/random/randomgen/SFMT.c`, with the parameters of `SFMT-params19937.h` and without the SIMD variants, and
`genrand` of `utils/random/random.c` on top of it.  The state is an array of 128-bit words, `sfmt`; `psfmt32` and
`psfmt64` are views of it as words of 32 and of 64 bits, the low half first.

`gen_rand_all` replaces the state in place.  `gen_rand_array` writes to an array of the caller and leaves the last
words that it wrote in the state.  Both follow the last two words with pointers.
-/

namespace Dedisbench

namespace Sfmt

/-! ### Parameters -/

/-- `MEXP` -/
def mexp : ℕ := 19937

/-- `N` -/
def n : ℕ := mexp / 128 + 1

/-- `N32` -/
def n32 : ℕ := n * 4

/-- `N64` -/
def n64 : ℕ := n * 2

/-- `POS1` -/
def pos1 : ℕ := 122

/-- `SL1` -/
def sl1 : UInt32 := 18

/-- `SL2` -/
def sl2 : UInt64 := 1

/-- `SR1` -/
def sr1 : UInt32 := 11

/-- `SR2` -/
def sr2 : UInt64 := 1

/-- `MSK1` -/
def msk1 : UInt32 := 0xdfffffef

/-- `MSK2` -/
def msk2 : UInt32 := 0xddfecb7f

/-- `MSK3` -/
def msk3 : UInt32 := 0xbffaffff

/-- `MSK4` -/
def msk4 : UInt32 := 0xbffffff6

/-! ### The recursion -/

/-- `w128_t` -/
@[ext]
structure W128 where
  u0 : UInt32
  u1 : UInt32
  u2 : UInt32
  u3 : UInt32
  deriving DecidableEq

/-- `u[i % 4]` -/
def W128.u (x : W128) (i : ℕ) : UInt32 :=
  match i % 4 with
  | 0 => x.u0
  | 1 => x.u1
  | 2 => x.u2
  | _ => x.u3

/-- `u[i % 4] = v` -/
def W128.setU (x : W128) (i : ℕ) (v : UInt32) : W128 :=
  match i % 4 with
  | 0 => { x with u0 := v }
  | 1 => { x with u1 := v }
  | 2 => { x with u2 := v }
  | _ => { x with u3 := v }

/-- `parity` -/
def parity : W128 := ⟨0x00000001, 0x00000000, 0x00000000, 0x13c9e684⟩

/-- Two words as one of 64 bits. -/
def join (hi lo : UInt32) : UInt64 := hi.toUInt64 <<< 32 ||| lo.toUInt64

/-- Two words of 64 bits as one of 128. -/
def W128.ofHalves (oh ol : UInt64) : W128 :=
  ⟨ol.toUInt32, (ol >>> 32).toUInt32, oh.toUInt32, (oh >>> 32).toUInt32⟩

/-- `rshift128` -/
def rshift128 (a : W128) (shift : UInt64) : W128 :=
  let th := join a.u3 a.u2
  let tl := join a.u1 a.u0
  let oh := th >>> (shift * 8)
  let ol := tl >>> (shift * 8) ||| th <<< (64 - shift * 8)
  .ofHalves oh ol

/-- `lshift128` -/
def lshift128 (a : W128) (shift : UInt64) : W128 :=
  let th := join a.u3 a.u2
  let tl := join a.u1 a.u0
  let ol := tl <<< (shift * 8)
  let oh := th <<< (shift * 8) ||| tl >>> (64 - shift * 8)
  .ofHalves oh ol

/-- `do_recursion`: the word it makes of the words `a`, `b`, `c` and `d`. -/
def doRecursion (a b c d : W128) : W128 :=
  let x := lshift128 a sl2
  let y := rshift128 c sr2
  { u0 := a.u0 ^^^ x.u0 ^^^ ((b.u0 >>> sr1) &&& msk1) ^^^ y.u0 ^^^ (d.u0 <<< sl1)
    u1 := a.u1 ^^^ x.u1 ^^^ ((b.u1 >>> sr1) &&& msk2) ^^^ y.u1 ^^^ (d.u1 <<< sl1)
    u2 := a.u2 ^^^ x.u2 ^^^ ((b.u2 >>> sr1) &&& msk3) ^^^ y.u2 ^^^ (d.u2 <<< sl1)
    u3 := a.u3 ^^^ x.u3 ^^^ ((b.u3 >>> sr1) &&& msk4) ^^^ y.u3 ^^^ (d.u3 <<< sl1) }

/-! ### Arrays -/

/-- `a[i]` -/
def arrayAt {α : Type} (a : List α) (i : ℕ) : Exec α :=
  match a[i]? with
  | some x => .ok x
  | none => .error .undefined

/-- `a[i] = x` -/
def arraySet {α : Type} (a : List α) (i : ℕ) (x : α) : Exec (List α) :=
  if i < a.length then .ok (a.set i x) else .error .undefined

/-- `psfmt32[i]` -/
def psfmt32 (sfmt : List W128) (i : ℕ) : Exec UInt32 := do
  let x ← arrayAt sfmt (i / 4)
  .ok (x.u i)

/-- `psfmt32[i] = v` -/
def setPsfmt32 (sfmt : List W128) (i : ℕ) (v : UInt32) : Exec (List W128) := do
  let x ← arrayAt sfmt (i / 4)
  arraySet sfmt (i / 4) (x.setU i v)

/-- `psfmt64[i]` -/
def psfmt64 (sfmt : List W128) (i : ℕ) : Exec UInt64 := do
  let lo ← psfmt32 sfmt (2 * i)
  let hi ← psfmt32 sfmt (2 * i + 1)
  .ok (join hi lo)

/-- A pointer to a word of the state or of the array of the caller. -/
inductive Ptr where
  | sfmt (i : ℕ)
  | array (i : ℕ)
  deriving DecidableEq

/-- The state and the array of the caller. -/
structure Mem where
  sfmt : List W128
  array : List W128

/-- `*p` -/
def Mem.read (m : Mem) : Ptr → Exec W128
  | .sfmt i => arrayAt m.sfmt i
  | .array i => arrayAt m.array i

/-- `*p = x` -/
def Mem.write (m : Mem) (p : Ptr) (x : W128) : Exec Mem :=
  match p with
  | .sfmt i => do
    let sfmt ← arraySet m.sfmt i x
    .ok { m with sfmt }
  | .array i => do
    let array ← arraySet m.array i x
    .ok { m with array }

/-! ### Filling -/

/-- The memory, and the pointers to the last two words. -/
structure Fill where
  mem : Mem
  r1 : Ptr
  r2 : Ptr

/-- The body of a loop: `do_recursion` writes to `r i` what it makes of `a i`, `b i` and the last two words. -/
def Fill.step (r a b : ℕ → Ptr) (s : Fill) (i : ℕ) : Exec Fill := do
  let x ← s.mem.read (a i)
  let y ← s.mem.read (b i)
  let c ← s.mem.read s.r1
  let d ← s.mem.read s.r2
  let mem ← s.mem.write (r i) (doRecursion x y c d)
  .ok ⟨mem, s.r2, r i⟩

/-- `gen_rand_all` -/
def genRandAll (sfmt : List W128) : Exec (List W128) := do
  let s : Fill := ⟨⟨sfmt, []⟩, .sfmt (n - 2), .sfmt (n - 1)⟩
  let s ← (List.range' 0 (n - pos1)).foldlM (Fill.step .sfmt .sfmt fun i => .sfmt (i + pos1)) s
  let s ← (List.range' (n - pos1) pos1).foldlM (Fill.step .sfmt .sfmt fun i => .sfmt (i + pos1 - n)) s
  .ok s.mem.sfmt

/-- `sfmt[j] = array[i]` -/
def Mem.keep (m : Mem) (j i : ℕ) : Exec Mem := do
  let x ← m.read (.array i)
  m.write (.sfmt j) x

/-- The body of the last loop of `gen_rand_array`. -/
def Fill.stepKeep (s : Fill × ℕ) (i : ℕ) : Exec (Fill × ℕ) := do
  let t ← Fill.step .array (fun i => .array (i - n)) (fun i => .array (i + pos1 - n)) s.1 i
  let mem ← t.mem.keep s.2 i
  .ok ({ t with mem }, s.2 + 1)

/-- `gen_rand_array` -/
def genRandArray (m : Mem) (size : ℕ) : Exec Mem := do
  let s : Fill := ⟨m, .sfmt (n - 2), .sfmt (n - 1)⟩
  let s ← (List.range' 0 (n - pos1)).foldlM (Fill.step .array .sfmt fun i => .sfmt (i + pos1)) s
  let s ← (List.range' (n - pos1) pos1).foldlM (Fill.step .array .sfmt fun i => .array (i + pos1 - n)) s
  let s ← (List.range' n (size - n - n)).foldlM
    (Fill.step .array (fun i => .array (i - n)) fun i => .array (i + pos1 - n)) s
  let mem ← (List.range (2 * n - size)).foldlM (fun m j => m.keep j (j + size - n)) s.mem
  let i := max n (size - n)
  let (s, _) ← (List.range' i (size - i)).foldlM Fill.stepKeep ({ s with mem }, 2 * n - size)
  .ok s.mem

/-! ### Initialization -/

/-- The loop of `period_certification` that folds the bits of `inner` into the lowest. -/
def foldInner (inner : BitVec 32) : BitVec 32 :=
  [16, 8, 4, 2, 1].foldl (fun inner i => inner ^^^ inner.sshiftRight i) inner

/-- The first bit of the parity check vector, from the lowest one of its first word on. -/
def checkBit : Option (ℕ × UInt32) :=
  ((List.range 4).flatMap fun i => (List.range 32).map fun j => (i, (1 : UInt32) <<< UInt32.ofNat j)).find?
    fun x => x.2 &&& parity.u x.1 ≠ 0

/-- `period_certification` -/
def periodCertification (sfmt : List W128) : Exec (List W128) := do
  let inner ← (List.range 4).foldlM (fun (inner : BitVec 32) i => do
    let x ← psfmt32 sfmt i
    .ok (inner ^^^ (x &&& parity.u i).toBitVec)) 0
  if foldInner inner &&& 1 = 1 then .ok sfmt
  else match checkBit with
    | none => .ok sfmt
    | some (i, work) => do
      let x ← psfmt32 sfmt i
      setPsfmt32 sfmt i (x ^^^ work)

/-- The state of the generator; `idx` is the next word of `psfmt32`. -/
structure State where
  sfmt : List W128
  idx : ℕ
  initialized : Bool

/-- The state when the program starts. -/
def State.start : State := ⟨List.replicate n ⟨0, 0, 0, 0⟩, 0, false⟩

/-- `init_gen_rand` -/
def initGenRand (s : State) (seed : UInt32) : Exec State := do
  let sfmt ← setPsfmt32 s.sfmt 0 seed
  let sfmt ← (List.range' 1 (n32 - 1)).foldlM (fun sfmt i => do
    let x ← psfmt32 sfmt (i - 1)
    setPsfmt32 sfmt i ((1812433253 : UInt32) * (x ^^^ (x >>> 30)) + UInt32.ofNat i)) sfmt
  let sfmt ← periodCertification sfmt
  .ok ⟨sfmt, n32, true⟩

/-- `func1` -/
def func1 (x : UInt32) : UInt32 := (x ^^^ (x >>> 27)) * 1664525

/-- `func2` -/
def func2 (x : UInt32) : UInt32 := (x ^^^ (x >>> 27)) * 1566083941

/-- `lag` -/
def lag (size : ℕ) : ℕ := if 623 ≤ size then 11 else if 68 ≤ size then 7 else if 39 ≤ size then 5 else 3

/-- `mid` -/
def mid : ℕ := (n * 4 - lag (n * 4)) / 2

/-- The body of the first two loops of `init_by_array`; `key` is what is added to `r`, besides `i`. -/
def mixIn (key : UInt32) (s : List W128 × ℕ) : Exec (List W128 × ℕ) := do
  let (sfmt, i) := s
  let x ← psfmt32 sfmt i
  let y ← psfmt32 sfmt ((i + mid) % n32)
  let z ← psfmt32 sfmt ((i + n32 - 1) % n32)
  let r := func1 (x ^^^ y ^^^ z)
  let sfmt ← setPsfmt32 sfmt ((i + mid) % n32) (y + r)
  let r := r + (key + UInt32.ofNat i)
  let v ← psfmt32 sfmt ((i + mid + lag (n * 4)) % n32)
  let sfmt ← setPsfmt32 sfmt ((i + mid + lag (n * 4)) % n32) (v + r)
  let sfmt ← setPsfmt32 sfmt i r
  .ok (sfmt, (i + 1) % n32)

/-- The body of the last loop of `init_by_array`. -/
def mixOut (s : List W128 × ℕ) : Exec (List W128 × ℕ) := do
  let (sfmt, i) := s
  let x ← psfmt32 sfmt i
  let y ← psfmt32 sfmt ((i + mid) % n32)
  let z ← psfmt32 sfmt ((i + n32 - 1) % n32)
  let r := func2 (x + y + z)
  let sfmt ← setPsfmt32 sfmt ((i + mid) % n32) (y ^^^ r)
  let r := r - UInt32.ofNat i
  let v ← psfmt32 sfmt ((i + mid + lag (n * 4)) % n32)
  let sfmt ← setPsfmt32 sfmt ((i + mid + lag (n * 4)) % n32) (v ^^^ r)
  let sfmt ← setPsfmt32 sfmt i r
  .ok (sfmt, (i + 1) % n32)

/-- A key for `init_by_array`: `key_length` is an `int`, and so is `key_length + 1`. -/
def InitKey : Type := { initKey : List UInt32 // initKey.length + 1 < 2 ^ 31 }

/-- `init_by_array` -/
def initByArray (initKey : InitKey) : Exec State := do
  let sfmt : List W128 := List.replicate n ⟨0x8b8b8b8b, 0x8b8b8b8b, 0x8b8b8b8b, 0x8b8b8b8b⟩
  let keyLength := initKey.1.length
  let count := if n32 < keyLength + 1 then keyLength + 1 else n32
  let x ← psfmt32 sfmt 0
  let y ← psfmt32 sfmt mid
  let z ← psfmt32 sfmt (n32 - 1)
  let r := func1 (x ^^^ y ^^^ z)
  let sfmt ← setPsfmt32 sfmt mid (y + r)
  let r := r + UInt32.ofNat keyLength
  let v ← psfmt32 sfmt (mid + lag (n * 4))
  let sfmt ← setPsfmt32 sfmt (mid + lag (n * 4)) (v + r)
  let sfmt ← setPsfmt32 sfmt 0 r
  let s ← (initKey.1.take (count - 1)).foldlM (fun s key => mixIn key s) (sfmt, 1)
  let s ← (List.range' keyLength (count - 1 - keyLength)).foldlM (fun s _ => mixIn 0 s) s
  let (sfmt, _) ← (List.range n32).foldlM (fun s _ => mixOut s) s
  let sfmt ← periodCertification sfmt
  .ok ⟨sfmt, n32, true⟩

/-! ### Drawing -/

/-- New words, once all have been drawn. -/
def State.refill (s : State) : Exec State :=
  if n32 ≤ s.idx then do
    let sfmt ← genRandAll s.sfmt
    .ok { s with sfmt, idx := 0 }
  else .ok s

/-- `gen_rand32`; a failed assertion ends the program. -/
def genRand32 (s : State) : Exec (UInt32 × State) :=
  if s.initialized = false then .error .exit
  else do
    let s ← s.refill
    let r ← psfmt32 s.sfmt s.idx
    .ok (r, { s with idx := s.idx + 1 })

/-- `gen_rand64` -/
def genRand64 (s : State) : Exec (UInt64 × State) :=
  if s.initialized = false ∨ s.idx % 2 ≠ 0 then .error .exit
  else do
    let s ← s.refill
    let r ← psfmt64 s.sfmt (s.idx / 2)
    .ok (r, { s with idx := s.idx + 2 })

/-- `fill_array32` and `fill_array64`, for an array of `size` words with `per` of them in 128 bits; `least` is the
least size. -/
def fillArray (per least : ℕ) (s : State) (array : List W128) (size : ℤ) : Exec (List W128 × State) :=
  if s.initialized = false ∨ s.idx ≠ n32 ∨ size % per ≠ 0 ∨ size < least then .error .exit
  else do
    let m ← genRandArray ⟨s.sfmt, array⟩ (size / per).toNat
    .ok (m.array, { s with sfmt := m.sfmt, idx := n32 })

/-- `fill_array32` -/
def fillArray32 : State → List W128 → ℤ → Exec (List W128 × State) := fillArray 4 n32

/-- `fill_array64` -/
def fillArray64 : State → List W128 → ℤ → Exec (List W128 × State) := fillArray 2 n64

end Sfmt

end Dedisbench
