import Mathlib.Data.List.Lex
import Mathlib.Tactic.Ring
import Arachne.Lib.Fallible

/-! Byte strings, big-endian numbers, and decoders that consume a byte cursor.
`Reads r bytes a` says that `r` turns exactly `bytes` into `a`, whatever follows;
the rules below build such facts along the structure of a decoder. -/

namespace Arachne.ByteCodec

open Fallible

variable {β α : Type} {a : α} {width : Nat} {c : Prop} {x : Outcome α}

abbrev Bytes := List UInt8

instance linearOrderUInt8 : LinearOrder UInt8 where
  le_refl a := UInt8.le_refl a
  le_trans _ _ _ := UInt8.le_trans
  lt_iff_le_not_ge _ _ := by simp only [UInt8.lt_iff_toNat_lt, UInt8.le_iff_toNat_le]; omega
  le_antisymm _ _ := UInt8.le_antisymm
  le_total := UInt8.le_total
  toDecidableLE := inferInstance
  toDecidableEq := inferInstance
  toDecidableLT := inferInstance

/-- A byte array of fixed size. -/
abbrev Block (n : Nat) := { bytes : Bytes // bytes.length = n }

abbrev U64 := Fin (2 ^ 64)

instance neZeroU64 : NeZero (2 ^ 64) := inferInstance

instance lawfulBEqU64 : LawfulBEq U64 := inferInstance

instance lawfulBEqBytes : LawfulBEq Bytes := inferInstance

instance lawfulBEqBlock16 : LawfulBEq (Block 16) := inferInstance

instance lawfulBEqBlock32 : LawfulBEq (Block 32) := inferInstance

theorem length_take_half {bytes : Bytes} (h : bytes.length = 64) : (bytes.take 32).length = 32 := by
  simp [h]

theorem length_drop_half {bytes : Bytes} (h : bytes.length = 64) : (bytes.drop 32).length = 32 := by
  simp [h]

/-- `checked_add(1)`. -/
def checkedSucc (n : U64) : Option U64 :=
  if h : n.val + 1 < 2 ^ 64 then some ⟨n.val + 1, h⟩ else none

theorem checkedSucc_val {n m : U64} (h : checkedSucc n = some m) : m.val = n.val + 1 := by
  unfold checkedSucc at h
  split at h
  · exact congrArg Fin.val (Option.some.inj h).symm
  · cases h

/-- `checked_add`. -/
def checkedAdd (n m : U64) : Option U64 :=
  if h : n.val + m.val < 2 ^ 64 then some ⟨n.val + m.val, h⟩ else none

theorem checkedAdd_val {n m k : U64} (h : checkedAdd n m = some k) : k.val = n.val + m.val := by
  unfold checkedAdd at h
  split at h
  · exact congrArg Fin.val (Option.some.inj h).symm
  · cases h

/-- `saturating_add`. -/
def saturatingAdd (n : U64) (k : Nat) : U64 :=
  if h : n.val + k < 2 ^ 64 then ⟨n.val + k, h⟩ else Fin.last _

theorem saturatingAdd_val (n : U64) (k : Nat) :
    (saturatingAdd n k).val = min (n.val + k) (2 ^ 64 - 1) := by
  rw [saturatingAdd]
  split
  · rename_i hlt
    exact (min_eq_left (Nat.le_sub_one_of_lt hlt)).symm
  · rename_i hge
    exact (min_eq_right (by omega)).symm

/-- The number before; `n - 1` where `n` is not zero. -/
def predU64 (n : U64) : U64 := ⟨n.val - 1, by omega⟩

theorem saturatingAdd_predU64 {n : U64} (h : n ≠ 0) : saturatingAdd (predU64 n) 1 = n := by
  have hne : n.val ≠ 0 := fun heq => h (Fin.ext heq)
  have hlt := n.isLt
  rw [saturatingAdd, dif_pos (by simp only [predU64]; omega)]
  apply Fin.ext
  simp only [predU64]
  omega

def zeroBlock (n : Nat) : Block n := ⟨List.replicate n 0, by simp⟩

theorem length_flatMap_block {n : Nat} (blocks : List (Block n)) :
    (blocks.flatMap Subtype.val).length = n * blocks.length := by
  induction blocks with
  | nil => rfl
  | cons block blocks ih =>
    rw [List.flatMap_cons, List.length_append, ih, block.property, List.length_cons,
      Nat.mul_succ, Nat.add_comm]

/-- The `n` bytes of an array from `start` on. -/
def blockSlice {size : Nat} (start n : Nat) (block : Block size)
    (h : start + n ≤ size := by decide) : Block n :=
  ⟨(block.1.drop start).take n, by
    rw [List.length_take, List.length_drop, block.2]
    omega⟩

/-- The big-endian bytes of the low `8 * width` bits of a number. -/
def beBytes : Nat → Nat → Bytes
  | 0, _ => []
  | width + 1, n => UInt8.ofNat (n / 256 ^ width) :: beBytes width n

def beNat (bytes : Bytes) : Nat :=
  bytes.foldl (fun acc b => acc * 256 + b.toNat) 0

@[simp] theorem beBytes_length (width n : Nat) : (beBytes width n).length = width := by
  induction width with
  | zero => rfl
  | succ width ih => simp [beBytes, ih]

theorem beBytes_one (n : Nat) : [UInt8.ofNat n] = beBytes 1 n := by
  simp [beBytes]

private theorem foldl_beBytes (width n acc : Nat) :
    (beBytes width n).foldl (fun acc b => acc * 256 + b.toNat) acc =
      acc * 256 ^ width + n % 256 ^ width := by
  induction width generalizing acc with
  | zero => simp [beBytes, Nat.mod_one]
  | succ width ih =>
    have hmod : n % 256 ^ (width + 1) =
        256 ^ width * (n / 256 ^ width % 256) + n % 256 ^ width := by
      rw [Nat.pow_succ, Nat.mod_mul, Nat.add_comm]
    simp only [beBytes, List.foldl_cons, ih, UInt8.toNat_ofNat', hmod]
    ring

theorem beNat_beBytes {n : Nat} (h : n < 256 ^ width) : beNat (beBytes width n) = n := by
  simp [beNat, foldl_beBytes, Nat.mod_eq_of_lt h]

theorem beNat_lt (bytes : Bytes) : beNat bytes < 256 ^ bytes.length := by
  have hacc : ∀ acc, bytes.foldl (fun acc b => acc * 256 + b.toNat) acc <
      (acc + 1) * 256 ^ bytes.length := by
    induction bytes with
    | nil => intro acc; simp
    | cons b bytes ih =>
      intro acc
      have hb := b.toNat_lt
      calc List.foldl _ (acc * 256 + b.toNat) bytes
          < (acc * 256 + b.toNat + 1) * 256 ^ bytes.length := ih _
        _ ≤ ((acc + 1) * 256) * 256 ^ bytes.length := by
            apply Nat.mul_le_mul_right
            omega
        _ = (acc + 1) * 256 ^ (b :: bytes).length := by
            rw [List.length_cons, Nat.pow_succ]
            ring
  simpa [beNat] using hacc 0

theorem beBytes_mod (width n : Nat) : beBytes width (n % 256 ^ width) = beBytes width n := by
  have hmod : ∀ m, width ≤ m → beBytes width (n % 256 ^ m) = beBytes width n := by
    induction width with
    | zero => intros; rfl
    | succ width ih =>
      intro m hm
      have hpow : 256 ^ m = 256 ^ width * (256 * 256 ^ (m - (width + 1))) := by
        rw [← Nat.pow_succ', ← Nat.pow_add]
        congr 1
        omega
      have hdigit : n % 256 ^ m / 256 ^ width % 256 = n / 256 ^ width % 256 := by
        rw [hpow, Nat.mod_mul_right_div_self, Nat.mod_mul_right_mod]
      have hbyte : UInt8.ofNat (n % 256 ^ m / 256 ^ width) = UInt8.ofNat (n / 256 ^ width) := by
        apply UInt8.toNat_inj.mp
        simpa [UInt8.toNat_ofNat'] using hdigit
      rw [beBytes, beBytes, hbyte, ih m (by omega)]
  exact hmod width le_rfl

private theorem foldl_eq_beNat (bytes : Bytes) (acc : Nat) :
    bytes.foldl (fun acc b => acc * 256 + b.toNat) acc =
      acc * 256 ^ bytes.length + beNat bytes := by
  induction bytes generalizing acc with
  | nil => simp [beNat]
  | cons b bytes ih =>
    rw [beNat, List.foldl_cons, List.foldl_cons, ih, ih, List.length_cons, Nat.pow_succ]
    ring

theorem beBytes_beNat (bytes : Bytes) : beBytes bytes.length (beNat bytes) = bytes := by
  induction bytes with
  | nil => rfl
  | cons b bytes ih =>
    have hvalue : beNat (b :: bytes) = beNat bytes + 256 ^ bytes.length * b.toNat := by
      rw [beNat, List.foldl_cons, foldl_eq_beNat]
      ring
    have hrest := beNat_lt bytes
    have htail : beBytes bytes.length (beNat (b :: bytes)) = bytes := by
      rw [← beBytes_mod, hvalue, Nat.add_mul_mod_self_left, beBytes_mod, ih]
    have hhead : beNat (b :: bytes) / 256 ^ bytes.length = b.toNat := by
      rw [hvalue, Nat.add_mul_div_left _ _ (Nat.pow_pos (by decide)), Nat.div_eq_of_lt hrest,
        Nat.zero_add]
    rw [List.length_cons, beBytes, hhead, htail, UInt8.ofNat_toNat]

/-- `u64::from_be_bytes`, for eight bytes. -/
def u64OfBytes (bytes : Bytes) : U64 := Fin.ofNat _ (beNat bytes)

theorem u64OfBytes_beBytes (n : U64) : u64OfBytes (beBytes 8 n.val) = n := by
  have hvalue : beNat (beBytes 8 n.val) = n.val := beNat_beBytes n.isLt
  apply Fin.ext
  rw [u64OfBytes, hvalue]
  exact Nat.mod_eq_of_lt n.isLt

theorem beBytes_u64OfBytes {bytes : Bytes} (h : bytes.length = 8) :
    beBytes 8 (u64OfBytes bytes).val = bytes := by
  have hlt : beNat bytes < 2 ^ 64 := by
    have hbound := beNat_lt bytes
    rw [h] at hbound
    exact hbound
  have hvalue : (u64OfBytes bytes).val = beNat bytes := Nat.mod_eq_of_lt hlt
  rw [hvalue, ← h, beBytes_beNat]

/-- The UTF-8 bytes of a text. -/
def utf8 (s : String) : Bytes := s.toByteArray.data.toList

def fromUtf8 (bytes : Bytes) : Option String := String.fromUTF8? ⟨bytes.toArray⟩

theorem fromUtf8_utf8 (s : String) : fromUtf8 (utf8 s) = some s := by
  simp only [fromUtf8, utf8, String.fromUTF8?, Array.toArray_toList]
  exact dif_pos s.isValidUTF8

private theorem utf8EncodeChar_ofUInt8 {b : UInt8} (h : b < 128) :
    String.utf8EncodeChar (Char.ofUInt8 b) = [b] := by
  have hb : b.toNat ≤ 127 := Nat.le_of_lt_succ (UInt8.lt_iff_toNat_lt.mp h)
  have hval : (Char.ofUInt8 b).val = b.toUInt32 := rfl
  simp [String.utf8EncodeChar, hval, hb]

theorem fromUtf8_isSome_of_ascii {bytes : Bytes} (h : ∀ b ∈ bytes, b < 128) :
    (fromUtf8 bytes).isSome := by
  have hencode : (bytes.map Char.ofUInt8).flatMap String.utf8EncodeChar = bytes := by
    rw [List.flatMap_map]
    induction bytes with
    | nil => rfl
    | cons b bytes ih =>
      rw [List.flatMap_cons, ih fun b hb => h b (by simp [hb]),
        utf8EncodeChar_ofUInt8 (h b (by simp))]
      rfl
  have hvalid : ByteArray.IsValidUTF8 ⟨bytes.toArray⟩ := by
    refine ⟨bytes.map Char.ofUInt8, ?_⟩
    rw [List.utf8Encode, hencode]
    ext1
    simp
  simp [fromUtf8, String.fromUTF8?, hvalid]

/-- A decoder: the value read and the bytes left, or an error. -/
abbrev Reader := StateT Bytes Outcome

/-- A check made between two reads. -/
def check (c : Prop) [Decidable c] (message : String) : Reader Unit :=
  fun bytes => do failIf c message; pure ((), bytes)

/-- A computation made between two reads. -/
def lift {α : Type} (x : Outcome α) : Reader α :=
  fun bytes => do pure (← x, bytes)

/-- The next `n` bytes, or `message` when fewer are left. -/
def take (message : String) (n : Nat) : Reader Bytes :=
  fun bytes => if n ≤ bytes.length then .ok (bytes.take n, bytes.drop n) else .error message

/-- The next `n` bytes as an array of that size. -/
def takeBlock (message : String) (n : Nat) : Reader (Block n) :=
  fun bytes =>
    if h : n ≤ bytes.length then .ok (⟨bytes.take n, List.length_take_of_le h⟩, bytes.drop n)
    else .error message

def takeNat (message : String) (width : Nat) : Reader Nat := do
  return beNat (← take message width)

def takeU64 (message : String) : Reader U64 :=
  fun bytes =>
    if h : 8 ≤ bytes.length then
      .ok (⟨beNat (bytes.take 8), by
        have hlt := beNat_lt (bytes.take 8)
        rwa [List.length_take_of_le h] at hlt⟩, bytes.drop 8)
    else .error message

section Inversion

variable {message : String} {bytes : Bytes} {r : β × Bytes}

theorem reader_bind_eq_ok {reader : Reader α} {f : α → Reader β} : (reader >>= f) bytes = .ok r ↔
      ∃ (a : α) (rest : Bytes), reader bytes = .ok (a, rest) ∧ f a rest = .ok r := by
  change (do let s ← reader bytes; f s.1 s.2) = _ ↔ _
  rw [bind_eq_ok, Prod.exists]

variable {n : Nat}

theorem pure_apply_eq_ok {b : β} : (Pure.pure b : Reader β) bytes = .ok r ↔ r = (b, bytes) := by
  change Except.ok (b, bytes) = Except.ok r ↔ _
  rw [Except.ok.injEq]
  exact eq_comm

end Inversion

/-- `count` values read one after the other. -/
def readMany {α : Type} (reader : Reader α) : Nat → Reader (List α)
  | 0 => pure []
  | count + 1 => do
      let a ← reader
      return a :: (← readMany reader count)

/-- Whether nothing is left to read. -/
def atEnd : Reader Bool := fun bytes => .ok (bytes.isEmpty, bytes)

theorem atEnd_bind (f : Bool → Reader β) (bytes : Bytes) :
    (atEnd >>= f) bytes = f bytes.isEmpty bytes := rfl

/-- All that is left to read. -/
def takeRest : Reader Bytes := fun bytes => .ok (bytes, [])

theorem takeRest_bind (f : Bytes → Reader β) (bytes : Bytes) :
    (takeRest >>= f) bytes = f bytes [] := rfl

section Steps

variable {message : String} {bytes rest : Bytes}

theorem take_eq_ok {n : Nat} {front : Bytes} :
    take message n bytes = .ok (front, rest) ↔ front.length = n ∧ bytes = front ++ rest := by
  rw [take, ite_else_error_eq_ok, Except.ok.injEq, Prod.mk.injEq]
  constructor
  · rintro ⟨hle, rfl, rfl⟩
    exact ⟨List.length_take_of_le hle, (List.take_append_drop n bytes).symm⟩
  · rintro ⟨rfl, rfl⟩
    simp

theorem takeBlock_eq_ok {n : Nat} {block : Block n} :
    takeBlock message n bytes = .ok (block, rest) ↔ bytes = block.1 ++ rest := by
  have htake : takeBlock message n bytes = .ok (block, rest) ↔
      take message n bytes = .ok (block.1, rest) := by
    rw [takeBlock, take]
    split <;> simp [Subtype.ext_iff]
  rw [htake, take_eq_ok]
  exact and_iff_right block.2

theorem takeNat_eq_ok {n : Nat} : takeNat message width bytes = .ok (n, rest) ↔
      n < 256 ^ width ∧ bytes = beBytes width n ++ rest := by
  simp only [takeNat, reader_bind_eq_ok, take_eq_ok, pure_apply_eq_ok, Prod.mk.injEq]
  constructor
  · rintro ⟨front, _, ⟨rfl, rfl⟩, rfl, rfl⟩
    exact ⟨beNat_lt front, by rw [beBytes_beNat]⟩
  · rintro ⟨hn, rfl⟩
    exact ⟨beBytes width n, rest, ⟨beBytes_length width n, rfl⟩, (beNat_beBytes hn).symm, rfl⟩

theorem takeU64_eq_ok {n : U64} :
    takeU64 message bytes = .ok (n, rest) ↔ bytes = beBytes 8 n.val ++ rest := by
  have hnat : takeU64 message bytes = .ok (n, rest) ↔
      takeNat message 8 bytes = .ok (n.val, rest) := by
    simp only [takeNat, reader_bind_eq_ok, pure_apply_eq_ok, takeU64, take]
    split <;> simp [Fin.ext_iff, eq_comm, and_comm]
  rw [hnat, takeNat_eq_ok]
  exact and_iff_right n.isLt

theorem check_eq_ok [Decidable c] {u : Unit} :
    check c message bytes = .ok (u, rest) ↔ ¬c ∧ rest = bytes := by
  by_cases h : c <;> simp [check, failIf, h, pure, Except.pure, eq_comm]

theorem lift_eq_ok : lift x bytes = .ok (a, rest) ↔ x = .ok a ∧ rest = bytes := by
  cases x <;> simp [lift, pure, Except.pure, eq_comm]

theorem atEnd_eq_ok {b : Bool} :
    atEnd bytes = .ok (b, rest) ↔ b = bytes.isEmpty ∧ rest = bytes := by
  simp [atEnd, eq_comm]

end Steps

/-- A decoder that accepts what `write` makes of a valid value, whatever follows, and nothing
else. -/
def Exact {α : Type} (reader : Reader α) (valid : α → Prop) (write : α → Bytes) : Prop :=
  ∀ bytes a rest, reader bytes = .ok (a, rest) ↔ valid a ∧ bytes = write a ++ rest

theorem Exact.readMany {reader : Reader α} {valid : α → Prop} {write : α → Bytes}
    (h : Exact reader valid write) (count : Nat) :
    Exact (readMany reader count) (fun values => values.length = count ∧ ∀ a ∈ values, valid a)
      (fun values => values.flatMap write) := by
  induction count with
  | zero =>
    intro bytes values rest
    simp only [ByteCodec.readMany, pure_apply_eq_ok, Prod.mk.injEq, List.length_eq_zero_iff]
    constructor
    · rintro ⟨rfl, rfl⟩
      exact ⟨⟨rfl, List.forall_mem_nil _⟩, rfl⟩
    · rintro ⟨⟨rfl, _⟩, rfl⟩
      exact ⟨rfl, rfl⟩
  | succ count ih =>
    intro bytes values rest
    simp only [ByteCodec.readMany, reader_bind_eq_ok, h _ _ _, ih _ _ _, pure_apply_eq_ok,
      Prod.mk.injEq]
    constructor
    · rintro ⟨a, _, ⟨ha, rfl⟩, values, _, ⟨⟨rfl, hvalues⟩, rfl⟩, rfl, rfl⟩
      exact ⟨⟨rfl, List.forall_mem_cons.mpr ⟨ha, hvalues⟩⟩, by simp⟩
    · rintro ⟨⟨hlength, hvalues⟩, rfl⟩
      obtain ⟨a, values, rfl⟩ := List.exists_cons_of_length_eq_add_one hlength
      obtain ⟨ha, hvalues⟩ := List.forall_mem_cons.mp hvalues
      exact ⟨a, _, ⟨ha, by simp⟩, values, rest,
        ⟨⟨Nat.succ.inj hlength, hvalues⟩, rfl⟩, rfl, rfl⟩

def Reads {α : Type} (reader : Reader α) (bytes : Bytes) (a : α) : Prop :=
  ∀ rest, reader (bytes ++ rest) = .ok (a, rest)

namespace Reads

variable {reader : Reader α} {bytes bytes' : Bytes} {b : β}

theorem pure (a : α) : Reads (Pure.pure a) [] a := fun _ => rfl

variable {f : α → Reader β} {message : String} {n : Nat}

theorem bind (hreader : Reads reader bytes a) (hf : Reads (f a) bytes' b) :
    Reads (reader >>= f) (bytes ++ bytes') b := by
  intro rest
  rw [List.append_assoc]
  change (do let r ← reader (bytes ++ (bytes' ++ rest)); f r.1 r.2) = _
  rw [hreader]
  exact hf rest

theorem bind_apply (hreader : Reads reader bytes a) (f : α → Reader β) (rest : Bytes) :
    (reader >>= f) (bytes ++ rest) = f a rest := by
  change (do let r ← reader (bytes ++ rest); f r.1 r.2) = _
  rw [hreader]
  rfl

theorem bind_apply_nil (hreader : Reads reader [] a) (f : α → Reader β) (rest : Bytes) :
    (reader >>= f) rest = f a rest :=
  hreader.bind_apply f rest

theorem bind_nil (hreader : Reads reader [] a) (hf : Reads (f a) bytes b) :
    Reads (reader >>= f) bytes b :=
  hreader.bind hf

theorem bind_pure (hreader : Reads reader bytes a) (hf : Reads (f a) [] b) :
    Reads (reader >>= f) bytes b := by
  simpa using hreader.bind hf

theorem check [Decidable c] (h : ¬c) : Reads (ByteCodec.check c message) [] () := by
  intro rest
  simp [ByteCodec.check, failIf_of_not h]

theorem lift (h : x = .ok a) : Reads (ByteCodec.lift x) [] a := by
  intro rest
  simp [ByteCodec.lift, h]

theorem take (h : bytes.length = n) : Reads (ByteCodec.take message n) bytes bytes := by
  intro rest
  subst h
  simp [ByteCodec.take]

theorem takeBlock (block : Block n) : Reads (ByteCodec.takeBlock message n) block.1 block := by
  intro rest
  obtain ⟨bytes, rfl⟩ := block
  simp [ByteCodec.takeBlock]

theorem takeNat (h : n < 256 ^ width) :
    Reads (ByteCodec.takeNat message width) (beBytes width n) n := by
  intro rest
  change (do let r ← ByteCodec.take message width (beBytes width n ++ rest); _) = _
  rw [Reads.take (beBytes_length width n)]
  simp [beNat_beBytes h]
  rfl

theorem takeU64 (n : U64) : Reads (ByteCodec.takeU64 message) (beBytes 8 n.val) n := by
  intro rest
  have hvalue : beNat (beBytes 8 n.val) = n.val := beNat_beBytes n.isLt
  simp [ByteCodec.takeU64, hvalue]

theorem readMany {chunks : List Bytes} {values : List α}
    (h : List.Forall₂ (Reads reader) chunks values) :
    Reads (ByteCodec.readMany reader values.length) chunks.flatten values := by
  induction h with
  | nil => exact pure []
  | cons hfirst _ ih => exact hfirst.bind (ih.bind_pure (pure _))

theorem inj (h : Reads reader bytes a) {a' : α} (h' : Reads reader bytes' a') {rest rest' : Bytes}
    (heq : bytes ++ rest = bytes' ++ rest') : a = a' ∧ rest = rest' := by
  have hread := h rest
  rw [heq, h' rest'] at hread
  simp only [Except.ok.injEq, Prod.mk.injEq] at hread
  exact ⟨hread.1.symm, hread.2.symm⟩

end Reads

theorem beBytes_u64_inj {n n' : U64} (h : beBytes 8 n.val = beBytes 8 n'.val) : n = n' := by
  have hvalue := congrArg beNat h
  rw [beNat_beBytes n.isLt, beNat_beBytes n'.isLt] at hvalue
  exact Fin.ext hvalue

end Arachne.ByteCodec
