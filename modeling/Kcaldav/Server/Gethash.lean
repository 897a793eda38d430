import Kcaldav.Library.Blocks
import Kcaldav.Server.Fields
import Kcaldav.Server.Percent

/-! # Password hashes

`MD5` of `compats.c`, which takes a message in pieces, and `gethash` of
`kcaldav.passwd.c`, which makes the hash of a password with it. In pieces or not, the hash
is that of the message; it is written in the form that the server accepts.
-/
namespace Kcaldav
open CString

/-! ## MD5 -/

structure Md5State where
  a : UInt32
  b : UInt32
  c : UInt32
  d : UInt32
  deriving DecidableEq, Repr

def md5F1 (x y z : UInt32) : UInt32 := z ^^^ (x &&& (y ^^^ z))
def md5F2 (x y z : UInt32) : UInt32 := md5F1 z x y
def md5F3 (x y z : UInt32) : UInt32 := x ^^^ y ^^^ z
def md5F4 (x y z : UInt32) : UInt32 := y ^^^ (x ||| ~~~z)

/-- The central step. -/
def md5Step (f : UInt32 → UInt32 → UInt32 → UInt32) (w x y z data s : UInt32) : UInt32 :=
  let w := w + (f x y z + data)
  let w := w <<< s ||| w >>> (32 - s)
  w + x

/-- A word of a block, in little-endian order. -/
def word (block : Bytes) (i : ℕ) : UInt32 :=
  (block.getD (4 * i) 0).toUInt32 ||| (block.getD (4 * i + 1) 0).toUInt32 <<< 8 |||
    (block.getD (4 * i + 2) 0).toUInt32 <<< 16 ||| (block.getD (4 * i + 3) 0).toUInt32 <<< 24

def md5Transform (state : Md5State) (block : Bytes) : Md5State :=
  let a := state.a
  let b := state.b
  let c := state.c
  let d := state.d

  let a := md5Step md5F1 a b c d (word block 0 + 0xd76aa478) 7
  let d := md5Step md5F1 d a b c (word block 1 + 0xe8c7b756) 12
  let c := md5Step md5F1 c d a b (word block 2 + 0x242070db) 17
  let b := md5Step md5F1 b c d a (word block 3 + 0xc1bdceee) 22
  let a := md5Step md5F1 a b c d (word block 4 + 0xf57c0faf) 7
  let d := md5Step md5F1 d a b c (word block 5 + 0x4787c62a) 12
  let c := md5Step md5F1 c d a b (word block 6 + 0xa8304613) 17
  let b := md5Step md5F1 b c d a (word block 7 + 0xfd469501) 22
  let a := md5Step md5F1 a b c d (word block 8 + 0x698098d8) 7
  let d := md5Step md5F1 d a b c (word block 9 + 0x8b44f7af) 12
  let c := md5Step md5F1 c d a b (word block 10 + 0xffff5bb1) 17
  let b := md5Step md5F1 b c d a (word block 11 + 0x895cd7be) 22
  let a := md5Step md5F1 a b c d (word block 12 + 0x6b901122) 7
  let d := md5Step md5F1 d a b c (word block 13 + 0xfd987193) 12
  let c := md5Step md5F1 c d a b (word block 14 + 0xa679438e) 17
  let b := md5Step md5F1 b c d a (word block 15 + 0x49b40821) 22

  let a := md5Step md5F2 a b c d (word block 1 + 0xf61e2562) 5
  let d := md5Step md5F2 d a b c (word block 6 + 0xc040b340) 9
  let c := md5Step md5F2 c d a b (word block 11 + 0x265e5a51) 14
  let b := md5Step md5F2 b c d a (word block 0 + 0xe9b6c7aa) 20
  let a := md5Step md5F2 a b c d (word block 5 + 0xd62f105d) 5
  let d := md5Step md5F2 d a b c (word block 10 + 0x02441453) 9
  let c := md5Step md5F2 c d a b (word block 15 + 0xd8a1e681) 14
  let b := md5Step md5F2 b c d a (word block 4 + 0xe7d3fbc8) 20
  let a := md5Step md5F2 a b c d (word block 9 + 0x21e1cde6) 5
  let d := md5Step md5F2 d a b c (word block 14 + 0xc33707d6) 9
  let c := md5Step md5F2 c d a b (word block 3 + 0xf4d50d87) 14
  let b := md5Step md5F2 b c d a (word block 8 + 0x455a14ed) 20
  let a := md5Step md5F2 a b c d (word block 13 + 0xa9e3e905) 5
  let d := md5Step md5F2 d a b c (word block 2 + 0xfcefa3f8) 9
  let c := md5Step md5F2 c d a b (word block 7 + 0x676f02d9) 14
  let b := md5Step md5F2 b c d a (word block 12 + 0x8d2a4c8a) 20

  let a := md5Step md5F3 a b c d (word block 5 + 0xfffa3942) 4
  let d := md5Step md5F3 d a b c (word block 8 + 0x8771f681) 11
  let c := md5Step md5F3 c d a b (word block 11 + 0x6d9d6122) 16
  let b := md5Step md5F3 b c d a (word block 14 + 0xfde5380c) 23
  let a := md5Step md5F3 a b c d (word block 1 + 0xa4beea44) 4
  let d := md5Step md5F3 d a b c (word block 4 + 0x4bdecfa9) 11
  let c := md5Step md5F3 c d a b (word block 7 + 0xf6bb4b60) 16
  let b := md5Step md5F3 b c d a (word block 10 + 0xbebfbc70) 23
  let a := md5Step md5F3 a b c d (word block 13 + 0x289b7ec6) 4
  let d := md5Step md5F3 d a b c (word block 0 + 0xeaa127fa) 11
  let c := md5Step md5F3 c d a b (word block 3 + 0xd4ef3085) 16
  let b := md5Step md5F3 b c d a (word block 6 + 0x04881d05) 23
  let a := md5Step md5F3 a b c d (word block 9 + 0xd9d4d039) 4
  let d := md5Step md5F3 d a b c (word block 12 + 0xe6db99e5) 11
  let c := md5Step md5F3 c d a b (word block 15 + 0x1fa27cf8) 16
  let b := md5Step md5F3 b c d a (word block 2 + 0xc4ac5665) 23

  let a := md5Step md5F4 a b c d (word block 0 + 0xf4292244) 6
  let d := md5Step md5F4 d a b c (word block 7 + 0x432aff97) 10
  let c := md5Step md5F4 c d a b (word block 14 + 0xab9423a7) 15
  let b := md5Step md5F4 b c d a (word block 5 + 0xfc93a039) 21
  let a := md5Step md5F4 a b c d (word block 12 + 0x655b59c3) 6
  let d := md5Step md5F4 d a b c (word block 3 + 0x8f0ccc92) 10
  let c := md5Step md5F4 c d a b (word block 10 + 0xffeff47d) 15
  let b := md5Step md5F4 b c d a (word block 1 + 0x85845dd1) 21
  let a := md5Step md5F4 a b c d (word block 8 + 0x6fa87e4f) 6
  let d := md5Step md5F4 d a b c (word block 15 + 0xfe2ce6e0) 10
  let c := md5Step md5F4 c d a b (word block 6 + 0xa3014314) 15
  let b := md5Step md5F4 b c d a (word block 13 + 0x4e0811a1) 21
  let a := md5Step md5F4 a b c d (word block 4 + 0xf7537e82) 6
  let d := md5Step md5F4 d a b c (word block 11 + 0xbd3af235) 10
  let c := md5Step md5F4 c d a b (word block 2 + 0x2ad7d2bb) 15
  let b := md5Step md5F4 b c d a (word block 9 + 0xeb86d391) 21

  ⟨state.a + a, state.b + b, state.c + c, state.d + d⟩

/-- The buffer of a context. -/
structure Block where
  bytes : Bytes
  size : bytes.length = 64

/-- Copy bytes into a buffer, within its bounds. -/
def Block.put (b : Block) (off : ℕ) (src : Bytes) (h : off + src.length ≤ 64) : Block where
  bytes := b.bytes.take off ++ src ++ b.bytes.drop (off + src.length)
  size := by
    have hlen := b.size
    simp only [List.length_append, List.length_take, List.length_drop]
    omega

structure Md5Ctx where
  state : Md5State
  count : UInt64
  buffer : Block

/-- The bytes of the buffer that are taken. -/
def md5Have (count : UInt64) : ℕ := ((count >>> 3) &&& 63).toNat

theorem md5Have_lt (count : UInt64) : md5Have count < 64 := by
  rw [md5Have, UInt64.toNat_and]
  exact Nat.lt_succ_of_le Nat.and_le_right

def md5Start : Md5State := ⟨0x67452301, 0xefcdab89, 0x98badcfe, 0x10325476⟩

/-- The buffer is left as it is. -/
def md5Init (ctx : Md5Ctx) : Md5Ctx := { ctx with count := 0, state := md5Start }

/-- The blocks that the rest of an input has, and the buffer with what is left. -/
def md5Chunks (state : Md5State) (count : UInt64) (buffer : Block) (input : Bytes) : Md5Ctx where
  state := (takeBlocks md5Transform 64 input.length state input).1
  count := count
  buffer := buffer.put 0 (takeBlocks md5Transform 64 input.length state input).2 (by
    have hshort := takeBlocks_short md5Transform (by decide : 0 < 64) state (Nat.le_refl input.length)
    omega)

def md5Update (ctx : Md5Ctx) (input : Bytes) : Md5Ctx :=
  let count := ctx.count + UInt64.ofNat input.length <<< 3
  let need := 64 - md5Have ctx.count
  if h : need ≤ input.length then
    if md5Have ctx.count ≠ 0 then
      let buffer := ctx.buffer.put (md5Have ctx.count) (input.take need) (by
        have hlt := md5Have_lt ctx.count
        rw [List.length_take]
        omega)
      md5Chunks (md5Transform ctx.state buffer.bytes) count buffer (input.drop need)
    else md5Chunks ctx.state count ctx.buffer input
  else
    { ctx with
      count := count
      buffer := ctx.buffer.put (md5Have ctx.count) input (by omega) }

def PUT_64BIT_LE (value : UInt64) : Bytes :=
  [value.toUInt8, (value >>> 8).toUInt8, (value >>> 16).toUInt8, (value >>> 24).toUInt8, (value >>> 32).toUInt8,
    (value >>> 40).toUInt8, (value >>> 48).toUInt8, (value >>> 56).toUInt8]

def PUT_32BIT_LE (value : UInt32) : Bytes :=
  [value.toUInt8, (value >>> 8).toUInt8, (value >>> 16).toUInt8, (value >>> 24).toUInt8]

def PADDING : Bytes := 0x80 :: List.replicate 63 0

def md5Pad (ctx : Md5Ctx) : Md5Ctx :=
  let padlen := 64 - md5Have ctx.count
  let padlen := if padlen < 1 + 8 then padlen + 64 else padlen
  md5Update (md5Update ctx (PADDING.take (padlen - 8))) (PUT_64BIT_LE ctx.count)

def Md5State.bytes (s : Md5State) : Bytes := PUT_32BIT_LE s.a ++ PUT_32BIT_LE s.b ++ PUT_32BIT_LE s.c ++ PUT_32BIT_LE s.d

def md5Final (ctx : Md5Ctx) : Bytes := (md5Pad ctx).state.bytes

/-! ## What a context holds -/

/-- The context holds the message. -/
structure Md5Ctx.Holds (ctx : Md5Ctx) (msg : Bytes) : Prop where
  count : ctx.count = UInt64.ofNat (8 * msg.length)
  absorbed : Absorbed md5Transform 64 md5Start msg ctx.state (ctx.buffer.bytes.take (md5Have ctx.count))

/-- The bit count tells the place in the block, also where it has wrapped around. -/
theorem md5Have_ofNat (n : ℕ) : md5Have (UInt64.ofNat (8 * n)) = n % 64 := by
  have hmask : ∀ m : ℕ, m &&& 63 = m % 64 := fun m => Nat.and_two_pow_sub_one_eq_mod m 6
  rw [md5Have, UInt64.toNat_and, UInt64.toNat_shiftRight, UInt64.toNat_ofNat']
  change (8 * n % 2 ^ 64) >>> 3 &&& 63 = n % 64
  rw [hmask, Nat.shiftRight_eq_div_pow]
  omega

theorem count_add (m n : ℕ) : UInt64.ofNat (8 * m) + UInt64.ofNat n <<< 3 = UInt64.ofNat (8 * (m + n)) := by
  apply UInt64.toNat_inj.mp
  rw [UInt64.toNat_add, UInt64.toNat_shiftLeft, UInt64.toNat_ofNat', UInt64.toNat_ofNat', UInt64.toNat_ofNat', Nat.shiftLeft_eq]
  change (8 * m % 2 ^ 64 + n % 2 ^ 64 * 2 ^ 3 % 2 ^ 64) % 2 ^ 64 = 8 * (m + n) % 2 ^ 64
  omega

theorem Block.take_put (b : Block) (off : ℕ) (src : Bytes) (h : off + src.length ≤ 64) :
    (b.put off src h).bytes.take (off + src.length) = b.bytes.take off ++ src := by
  have hlen : (b.bytes.take off ++ src).length = off + src.length := by
    have hb := b.size
    rw [List.length_append, List.length_take]
    omega
  exact List.take_left' hlen

/-- Copied to its end a buffer has what was before and what has been copied. -/
theorem Block.put_full (b : Block) (off : ℕ) (src : Bytes) (h : off + src.length = 64) :
    (b.put off src (Nat.le_of_eq h)).bytes = b.bytes.take off ++ src := by
  have hrest : b.bytes.drop (off + src.length) = [] := List.drop_of_length_le (by rw [b.size, h])
  change b.bytes.take off ++ src ++ b.bytes.drop (off + src.length) = _
  rw [hrest, List.append_nil]

theorem md5Chunks_holds {state : Md5State} {count : UInt64} {msg input : Bytes} (buffer : Block)
    (h : Absorbed md5Transform 64 md5Start msg state []) (hcount : count = UInt64.ofNat (8 * (msg ++ input).length)) :
    (md5Chunks state count buffer input).Holds (msg ++ input) := by
  have htaken := h.taken (by decide) input (Nat.le_refl input.length)
  refine ⟨hcount, ?_⟩
  have hheld : md5Have count = 0 + (takeBlocks md5Transform 64 input.length state input).2.length := by
    rw [hcount, md5Have_ofNat, htaken.length, Nat.zero_add]
  change Absorbed _ _ _ _ _ (List.take (md5Have count) _)
  rw [hheld, md5Chunks]
  dsimp only
  rw [Block.take_put, List.take_zero, List.nil_append]
  exact htaken

/-- What follows is held with what was held before. -/
theorem md5Update_holds {ctx : Md5Ctx} {msg : Bytes} (h : ctx.Holds msg) (input : Bytes) : (md5Update ctx input).Holds (msg ++ input) := by
  have hlt := md5Have_lt ctx.count
  have hcount : ctx.count + UInt64.ofNat input.length <<< 3 = UInt64.ofNat (8 * (msg ++ input).length) := by
    rw [h.count, count_add, List.length_append]
  have hrest : (ctx.buffer.bytes.take (md5Have ctx.count)).length = md5Have ctx.count := by
    rw [List.length_take, ctx.buffer.size]
    omega
  unfold md5Update
  dsimp only
  split
  next hneed =>
    have hfirst : (input.take (64 - md5Have ctx.count)).length = 64 - md5Have ctx.count := by
      rw [List.length_take]
      omega
    split
    -- the block in the buffer is made full
    next hheld =>
      have hblock := h.absorbed.block (by decide) (x := input.take (64 - md5Have ctx.count)) (by
        rw [List.length_append, hrest, hfirst]
        omega)
      have hfull := ctx.buffer.put_full (md5Have ctx.count) (input.take (64 - md5Have ctx.count)) (by omega)
      have hcount' : ctx.count + UInt64.ofNat input.length <<< 3 =
          UInt64.ofNat (8 * (msg ++ input.take (64 - md5Have ctx.count) ++ input.drop (64 - md5Have ctx.count)).length) := by
        rw [List.append_assoc, List.take_append_drop, hcount]
      have hend := md5Chunks_holds (ctx.buffer.put (md5Have ctx.count) (input.take (64 - md5Have ctx.count)) (by omega)) hblock hcount'
      rwa [List.append_assoc, List.take_append_drop, ← hfull] at hend
    next hheld =>
      have hnone := h.absorbed
      rw [not_not.mp hheld, List.take_zero] at hnone
      exact md5Chunks_holds ctx.buffer hnone hcount
  -- the block in the buffer stays short
  next hneed =>
    refine ⟨hcount, ?_⟩
    have hmore := h.absorbed.more (x := input) (by
      rw [List.length_append, hrest]
      omega)
    have hheld : md5Have (ctx.count + UInt64.ofNat input.length <<< 3) = md5Have ctx.count + input.length := by
      rw [hcount, md5Have_ofNat, ← hmore.length, List.length_append, hrest]
    dsimp only
    rwa [hheld, Block.take_put]

theorem md5Init_holds (ctx : Md5Ctx) : (md5Init ctx).Holds [] := by
  have hhave : md5Have 0 = 0 := rfl
  refine ⟨rfl, ?_⟩
  change Absorbed _ _ _ _ _ (ctx.buffer.bytes.take (md5Have 0))
  rw [hhave, List.take_zero]
  exact .nil (by decide : 0 < 64) md5Start

/-- A message in pieces. -/
theorem md5Updates_holds {ctx : Md5Ctx} {msg : Bytes} (h : ctx.Holds msg) (chunks : List Bytes) :
    (chunks.foldl md5Update ctx).Holds (msg ++ chunks.flatten) := by
  induction chunks generalizing ctx msg with
  | nil =>
    rw [List.flatten_nil, List.append_nil]
    exact h
  | cons chunk chunks ih =>
    rw [List.flatten_cons, ← List.append_assoc]
    exact ih (md5Update_holds h chunk)

/-! ## The hash of a message -/

/-- The message with a one bit, zeros up to the place of the length, and the length. -/
def md5Padded (msg : Bytes) : Bytes :=
  msg ++ (0x80 :: List.replicate ((119 - msg.length % 64) % 64) 0) ++ PUT_64BIT_LE (UInt64.ofNat (8 * msg.length))

/-- The hash of a message in one piece. -/
def md5 (msg : Bytes) : Bytes := (takeBlocks md5Transform 64 (md5Padded msg).length md5Start (md5Padded msg)).1.bytes

theorem md5Pad_holds {ctx : Md5Ctx} {msg : Bytes} (h : ctx.Holds msg) : (md5Pad ctx).Holds (md5Padded msg) := by
  have hpadlen : PADDING.take ((if 64 - md5Have ctx.count < 1 + 8 then 64 - md5Have ctx.count + 64 else 64 - md5Have ctx.count) - 8) =
      0x80 :: List.replicate ((119 - msg.length % 64) % 64) 0 := by
    have hhave : md5Have ctx.count = msg.length % 64 := by rw [h.count, md5Have_ofNat]
    have hpos : (if 64 - md5Have ctx.count < 1 + 8 then 64 - md5Have ctx.count + 64 else 64 - md5Have ctx.count) - 8 =
        (119 - msg.length % 64) % 64 + 1 := by
      rw [hhave]
      split <;> omega
    rw [hpos, PADDING, List.take_succ_cons, List.take_replicate, Nat.min_eq_left (by omega)]
  unfold md5Pad
  dsimp only
  rw [hpadlen, md5Padded, ← h.count]
  exact md5Update_holds (md5Update_holds h _) _

theorem md5_absorbed (msg : Bytes) : Absorbed md5Transform 64 md5Start (md5Padded msg)
    (takeBlocks md5Transform 64 (md5Padded msg).length md5Start (md5Padded msg)).1
    (takeBlocks md5Transform 64 (md5Padded msg).length md5Start (md5Padded msg)).2 := by
  have hspec := (Absorbed.nil (by decide : 0 < 64) md5Start).taken (f := md5Transform) (by decide) (md5Padded msg) (Nat.le_refl _)
  rwa [List.nil_append] at hspec

/-- The end of a context is the hash of what it holds. -/
theorem md5Final_eq {ctx : Md5Ctx} {msg : Bytes} (h : ctx.Holds msg) : md5Final ctx = md5 msg := by
  have hpad := (md5Pad_holds h).absorbed
  rw [md5Final, md5, (hpad.unique (md5_absorbed msg)).1]

/-- However a message is cut, and whatever its length, the hash of its pieces is its hash. -/
theorem md5_chunked (ctx : Md5Ctx) (chunks : List Bytes) : md5Final (chunks.foldl md5Update (md5Init ctx)) = md5 chunks.flatten := by
  rw [md5Final_eq (md5Updates_holds (md5Init_holds ctx) chunks), List.nil_append]

theorem length_md5 (msg : Bytes) : (md5 msg).length = 16 := rfl

/-! ## Password hashes -/

def lowerHexDigit (d : UInt8) : UInt8 := if d < 10 then 48 + d else 87 + d

/-- Two digits for every byte, as of `%02x`. -/
def hexBytes (b : Bytes) : Bytes := b.flatMap fun c : UInt8 => [lowerHexDigit (c >>> 4), lowerHexDigit (c &&& 15)]

/-- The hash of a password that has been read. Too short a one, or none, ends the program. -/
def gethash (ctx : Md5Ctx) (user realm : Bytes) (pp : Option Bytes) : Option Bytes :=
  match pp with
  | none => none
  | some pbuf =>
    if pbuf = [] then none
    else if pbuf.length < 6 then none
    else
      let ctx := md5Init ctx
      let ctx := md5Update ctx user
      let ctx := md5Update ctx (ascii ":")
      let ctx := md5Update ctx realm
      let ctx := md5Update ctx (ascii ":")
      let ctx := md5Update ctx pbuf
      some (hexBytes (md5Final ctx))

/-- The two digits of a byte are as in a digest. -/
theorem lowerHexDigit_valid (c : UInt8) : ∀ d ∈ [lowerHexDigit (c >>> 4), lowerHexDigit (c &&& 15)], isDigit d || (97 ≤ d && d ≤ 102) :=
  List.all_eq_true.mp (forall_byte (P := fun c =>
    [lowerHexDigit (c >>> 4), lowerHexDigit (c &&& 15)].all fun d => isDigit d || (97 ≤ d && d ≤ 102)) (by decide +kernel) c)

theorem length_hexBytes (b : Bytes) : (hexBytes b).length = 2 * b.length := by
  induction b with
  | nil => rfl
  | cons c b ih =>
    rw [hexBytes, List.flatMap_cons, List.length_append, ← hexBytes, ih, List.length_cons, List.length_cons, List.length_cons,
      List.length_nil]
    omega

/-- A hash in digits is one that the form of the server takes. -/
theorem kvalidHash_hexBytes {b : Bytes} (hb : b.length = 16) : kvalidHash (hexBytes b) := by
  have hlen : (hexBytes b).length = 32 := by rw [length_hexBytes, hb]
  have hdigits : ∀ c ∈ hexBytes b, isDigit c || (97 ≤ c && c ≤ 102) := by
    intro c hc
    obtain ⟨x, -, hx⟩ := List.mem_flatMap.mp hc
    exact lowerHexDigit_valid x c hx
  have hne : hexBytes b ≠ [] := by
    intro hnil
    rw [hnil] at hlen
    cases hlen
  have hnul : NUL ∉ hexBytes b := fun hmem => absurd (hdigits NUL hmem) (by decide)
  simp [kvalidHash, kvalidStringne, hlen, hne, hnul]
  simpa using hdigits

theorem gethash_eq (ctx : Md5Ctx) (user realm : Bytes) (pp : Option Bytes) :
    gethash ctx user realm pp = (pp.filter fun pbuf => 6 ≤ pbuf.length).map fun pbuf =>
      hexBytes (md5 (user ++ ascii ":" ++ realm ++ ascii ":" ++ pbuf)) := by
  have hhash {pbuf : Bytes} : md5Final (([user, ascii ":", realm, ascii ":", pbuf]).foldl md5Update (md5Init ctx)) =
      md5 (user ++ ascii ":" ++ realm ++ ascii ":" ++ pbuf) := by
    rw [md5Final_eq (md5Updates_holds (md5Init_holds ctx) _)]
    simp
  unfold gethash
  cases pp with
  | none => rfl
  | some pbuf =>
    dsimp only
    split
    next hempty =>
      rw [hempty]
      rfl
    next hne =>
      split
      next hshort =>
        rw [Option.filter_some, if_neg (by simpa using hshort)]
        rfl
      next hlong =>
        rw [Option.filter_some, if_pos (by simpa using hlong)]
        exact congrArg (fun h => some (hexBytes h)) hhash

/-- A password has a hash exactly where six bytes or more have been read. What is stored is
the MD5 hash of the user, the realm and the password, whatever the context was before, and
the server takes it as a hash. -/
theorem gethash_spec (ctx : Md5Ctx) (user realm : Bytes) (pp : Option Bytes) :
    ((gethash ctx user realm pp).isSome ↔ ∃ pbuf, pp = some pbuf ∧ 6 ≤ pbuf.length) ∧
    ∀ digest ∈ gethash ctx user realm pp, kvalidHash digest ∧
      ∃ pbuf, pp = some pbuf ∧ digest = hexBytes (md5 (user ++ ascii ":" ++ realm ++ ascii ":" ++ pbuf)) := by
  rw [gethash_eq]
  constructor
  · cases pp <;> simp
  · intro digest hdigest
    obtain ⟨pbuf, hfilter, rfl⟩ := Option.map_eq_some_iff.mp hdigest
    obtain ⟨hread, -⟩ := Option.filter_eq_some_iff.mp hfilter
    exact ⟨kvalidHash_hexBytes (length_md5 _), pbuf, hread, rfl⟩

example : gethash ⟨md5Start, 0, ⟨List.replicate 64 7, by decide⟩⟩ (ascii "joe") (ascii "kcaldav") (some (ascii "secret")) =
    some (ascii "062a51deaa6add566afd7876f52d4d75") := by decide +kernel

end Kcaldav
