import NopeekOS.Storage.Object

/-!
# The encoding of blobs (`storage/npkfs/object.rs`)

A blob is a tag, its length in groups of seven bits, and its bytes. The number of groups grows
with the length (`length_encodeVarint_mono`), so that no two lengths have encodings of one size
and the length can be told from the size alone.
-/

namespace NopeekOS.Storage

/-- `encode_varint_u64` (object.rs:220): the bytes it writes. -/
def encodeVarint (x : Nat) : List Byte :=
  if x < 128 then [.ofNat 256 x] else .ofNat 256 (x % 128 + 128) :: encodeVarint (x / 128)
decreasing_by omega

/-- `encode_blob` (object.rs:200). -/
def encodeBlob (data : List Byte) : List Byte := 0 :: (encodeVarint data.length ++ data)

/-- `blob_len_from_encoded` (object.rs:212). -/
def blobLenFromEncoded (encoded : Nat) : Option Nat :=
  (List.range' 1 10).findSome? fun k =>
    if encoded < 1 + k then none
    else
      let n := encoded - (1 + k)
      if (encodeVarint n).length = k then some n else none

/-- The loop of `decode_blob_inplace`: the length, and the index after it. -/
def decodeLen : List Byte → Nat → Nat → Nat → Except ObjectError (Nat × Nat)
  | [], _, _, _ => .error .decode
  | b :: rest, idx, shift, len =>
    if 5 < idx then .error .decode
    else
      let len := len ||| (b.val % 128) <<< shift
      if b.val < 128 then .ok (len, idx + 1)
      else if 64 ≤ shift + 7 then .error .decode
      else decodeLen rest (idx + 1) (shift + 7) len

/-- `decode_blob_inplace` (object.rs:253). -/
def decodeBlobInplace (bytes : List Byte) : Except ObjectError (List Byte) :=
  match bytes with
  | [] => .error .decode
  | tag :: rest => do
    if tag ≠ 0 then .error .decode
    let (blobLen, pre) ← decodeLen rest 1 0 0
    if bytes.length < pre + blobLen then .error .decode
    return (bytes.drop pre).take blobLen

/-! ## Reading what was written -/

theorem or_shiftLeft {len shift : Nat} (h : len < 2 ^ shift) (m : Nat) :
    len ||| m <<< shift = m * 2 ^ shift + len := by
  rw [Nat.or_comm, ← Nat.shiftLeft_add_eq_or_of_lt h, Nat.shiftLeft_eq]

/-- A length of at most five groups is read back, from the group `j` on. -/
theorem decodeLen_encodeVarint {x j s : Nat} (rest : List Byte)
    (hfit : j + (encodeVarint x).length ≤ 5) (hs : s < 2 ^ (7 * j)) :
    decodeLen (encodeVarint x ++ rest) (j + 1) (7 * j) s =
      .ok (x * 2 ^ (7 * j) + s, j + 1 + (encodeVarint x).length) := by
  fun_induction encodeVarint x generalizing j s with
  | case1 x hx =>
    rw [List.length_singleton] at hfit ⊢
    have hval : (Fin.ofNat 256 x).val = x := Nat.mod_eq_of_lt (by omega)
    simp only [List.singleton_append, decodeLen, hval]
    rw [if_neg (by omega), if_pos hx, Nat.mod_eq_of_lt hx, or_shiftLeft hs]
  | case2 x hx ih =>
    rw [List.length_cons] at hfit ⊢
    have hval : (Fin.ofNat 256 (x % 128 + 128)).val = x % 128 + 128 :=
      Nat.mod_eq_of_lt (by omega)
    have hstep : 2 ^ (7 * (j + 1)) = 128 * 2 ^ (7 * j) := by
      rw [Nat.mul_add, Nat.pow_add, Nat.mul_comm]
    have hrest := ih (j := j + 1) (s := x % 128 * 2 ^ (7 * j) + s) (by omega) (by
      have := Nat.mul_le_mul_right (2 ^ (7 * j)) (show x % 128 ≤ 127 by omega)
      omega)
    simp only [List.cons_append, decodeLen, hval]
    rw [if_neg (by omega), if_neg (by omega), if_neg (by omega), Nat.add_mod_right, Nat.mod_mod,
      or_shiftLeft hs]
    refine hrest.trans (congrArg Except.ok (Prod.ext ?_ (by omega)))
    rw [hstep, ← Nat.mul_assoc, ← Nat.add_assoc, ← Nat.add_mul, Nat.div_add_mod']

/-! ## The size -/

theorem length_encodeVarint_mono {x y : Nat} (h : x ≤ y) :
    (encodeVarint x).length ≤ (encodeVarint y).length := by
  induction y using Nat.strong_induction_on generalizing x with
  | _ y ih =>
    rw [encodeVarint, encodeVarint.eq_def y]
    split
    · split <;> simp
    · rw [if_neg (by omega)]
      exact Nat.succ_le_succ (ih (y / 128) (by omega) (by omega))

theorem length_encodeVarint_le {x k : Nat} (h : x < 128 ^ (k + 1)) :
    (encodeVarint x).length ≤ k + 1 := by
  induction k generalizing x with
  | zero => rw [encodeVarint, if_pos (by omega), List.length_singleton]
  | succ k ih =>
    rw [encodeVarint]
    split
    · simp
    · exact Nat.succ_le_succ (ih ((Nat.div_lt_iff_lt_mul (by decide)).mpr h))

theorem length_encodeBlob (data : List Byte) :
    (encodeBlob data).length = 1 + (encodeVarint data.length).length + data.length := by
  simp [encodeBlob]
  omega

theorem encoded_strictMono : StrictMono fun n => 1 + (encodeVarint n).length + n := by
  intro m n hlt
  have := length_encodeVarint_mono hlt.le
  dsimp only
  omega

theorem decodeBlobInplace_encodeBlob {data : List Byte} (h : data.length < 2 ^ 35) :
    decodeBlobInplace (encodeBlob data) = .ok data := by
  have hle := length_encodeVarint_le (k := 4) h
  have hlen := decodeLen_encodeVarint (x := data.length) (j := 0) (s := 0) data (by omega)
    (by decide)
  rw [Nat.mul_zero, Nat.pow_zero, Nat.mul_one, Nat.add_comm 1] at hlen
  have hfits : ¬ (encodeBlob data).length < (encodeVarint data.length).length + 1 + data.length := by
    rw [length_encodeBlob]
    omega
  have hdrop : (encodeBlob data).drop ((encodeVarint data.length).length + 1) = data := by
    rw [encodeBlob, List.drop_succ_cons, List.drop_left]
  unfold decodeBlobInplace
  simp only [encodeBlob] at hfits hdrop ⊢
  rw [if_neg (by simp), hlen]
  simp only [bind, Except.bind, Nat.add_zero, if_neg hfits, hdrop, List.take_length]
  rfl

/-- The width that is found is the one of the length. -/
theorem blobLenFromEncoded_eq {encoded n : Nat} (h : encoded < 2 ^ 64) :
    blobLenFromEncoded encoded = some n ↔ 1 + (encodeVarint n).length + n = encoded := by
  have hfound {m : Nat} (hm : blobLenFromEncoded encoded = some m) :
      1 + (encodeVarint m).length + m = encoded := by
    obtain ⟨k, -, hk⟩ := List.exists_of_findSome?_eq_some hm
    split at hk
    · cases hk
    dsimp only at hk
    split at hk <;> cases hk
    omega
  refine ⟨hfound, fun hn => ?_⟩
  cases hfind : blobLenFromEncoded encoded with
  | some m => rw [encoded_strictMono.injective ((hfound hfind).trans hn.symm)]
  | none =>
    have hle := length_encodeVarint_le (x := n) (k := 9) (by omega)
    have hpos : 0 < (encodeVarint n).length := by
      rw [encodeVarint]
      split <;> simp
    have hnone := List.findSome?_eq_none_iff.mp hfind (encodeVarint n).length (by
      rw [List.mem_range'_1]
      omega)
    rw [if_neg (by omega), show encoded - (1 + (encodeVarint n).length) = n by omega] at hnone
    simp at hnone

/-- **Blobs are read back, and their length is told by the size of their encoding**, exactly for
the sizes that encodings have. -/
theorem blob_encoding_exact :
    (∀ data : List Byte, data.length < 2 ^ 35 → decodeBlobInplace (encodeBlob data) = .ok data) ∧
    ∀ encoded < 2 ^ 64, ∀ n, blobLenFromEncoded encoded = some n ↔
      ∃ data : List Byte, data.length = n ∧ (encodeBlob data).length = encoded := by
  refine ⟨fun data h => decodeBlobInplace_encodeBlob h, fun encoded h n => ?_⟩
  rw [blobLenFromEncoded_eq h]
  constructor
  · intro hn
    refine ⟨List.replicate n 0, List.length_replicate, ?_⟩
    rw [length_encodeBlob, List.length_replicate, hn]
  · rintro ⟨data, rfl, hdata⟩
    rw [← hdata, length_encodeBlob]

/-- The first blob with two bytes of length. -/
theorem blob_encoding_exact_two : blobLenFromEncoded 131 = some 128 := by
  refine (blob_encoding_exact.2 131 (by decide) 128).mpr ⟨List.replicate 128 0, rfl, ?_⟩
  rw [length_encodeBlob, List.length_replicate, encodeVarint, encodeVarint]
  rfl

end NopeekOS.Storage
