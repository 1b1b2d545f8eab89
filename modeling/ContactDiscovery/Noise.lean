import Mathlib
import ContactDiscovery.Util

/-!
# Messages of any length over Noise packets (`noiseutil/noise.c`)

A Noise transport packet holds at most `NOISE_MAX_PACKET_SIZE` bytes, a `NOISE_MAC_SIZE`-byte
tag included. `noise_encrypt_message` cuts a plaintext every `NOISE_MAX_DATA_SIZE` bytes and
encrypts each piece in place in the output buffer; `noise_decrypt_message` cuts the ciphertext
every `NOISE_MAX_PACKET_SIZE` bytes, moves each packet down to where its plaintext goes and
decrypts it there. `noise_decrypt_message_inplace` is the latter with the ciphertext and the
plaintext in one buffer.

The cipher states are noise-c's (outside the repository). `NoiseCipher` is what the functions
rely on: packet `n` of a cipher state (its nonce) is sealed by `sealPacket n`, which appends the
tag, and opened by `openPacket n`, which gives back what was sealed. A cipher state is its nonce.
`noiseCipherstateEncrypt` and `noiseCipherstateDecrypt` add noise-c's checks on the buffer:
room for the tag, at most `NOISE_MAX_PAYLOAD_LEN` bytes a packet. Memory is a byte list;
`memRead` and `memWrite` are `memcpy`'s two sides, and a copy past the end of a buffer is
undefined (`none`).

* `noiseEncryptMessage`, `noiseDecryptMessage`, `noiseDecryptMessageInplace`;
* `sealChunks` — the ciphertext a plaintext should become: its pieces sealed under consecutive
  nonces, one after another.

Principal result: `noiseEncryptMessage_roundtrip` — for every plaintext and synchronised cipher
states, the encryption succeeds exactly when the output buffer holds `n + NOISE_MAC_SIZE *
⌈n / NOISE_MAX_DATA_SIZE⌉` bytes, produces that many, and decrypting them in place gives the
plaintext back, both nonces advanced by the number of packets.
-/

set_option autoImplicit false

namespace ContactDiscovery

/-! ## Byte buffers -/

section Buffers

variable {α : Type}

/-- The `n` bytes of `mem` from `off`. -/
def memRead (mem : List α) (off n : ℕ) : List α := (mem.drop off).take n

/-- `mem` with `b` written from `off`. -/
def memWrite (mem : List α) (off : ℕ) (b : List α) : List α :=
  mem.take off ++ b ++ mem.drop (off + b.length)

theorem memWrite_length (mem : List α) (off : ℕ) (b : List α) (h : off + b.length ≤ mem.length) :
    (memWrite mem off b).length = mem.length := by
  simp only [memWrite, List.length_append, List.length_take, List.length_drop]
  omega

theorem memWrite_nil (mem : List α) (off : ℕ) : memWrite mem off [] = mem := by
  simp [memWrite]

/-- Below the window a write changes nothing. -/
theorem take_memWrite_of_le (mem : List α) (off : ℕ) (b : List α) {j : ℕ} (hj : j ≤ off)
    (h : off ≤ mem.length) : (memWrite mem off b).take j = mem.take j := by
  have hl : (mem.take off).length = off := by simp; omega
  rw [memWrite, List.append_assoc, List.take_append_of_le_length (by omega), List.take_take,
    min_eq_left hj]

/-- Above the window a write changes nothing. -/
theorem drop_memWrite_of_le (mem : List α) (off : ℕ) (b : List α) {j : ℕ} (hj : off + b.length ≤ j)
    (h : off ≤ mem.length) : (memWrite mem off b).drop j = mem.drop j := by
  have hl : (mem.take off ++ b).length = off + b.length := by simp; omega
  rw [memWrite, List.drop_append, List.drop_eq_nil_of_le (by omega), hl, List.drop_drop,
    List.nil_append]
  congr 1
  omega

/-- Up to the end of the window, a write is the old prefix and the written bytes. -/
theorem take_memWrite_self (mem : List α) (off : ℕ) (b : List α) (h : off ≤ mem.length) :
    (memWrite mem off b).take (off + b.length) = mem.take off ++ b := by
  have hl : (mem.take off ++ b).length = off + b.length := by simp; omega
  rw [memWrite, List.take_append_of_le_length (by omega), List.take_of_length_le (by omega)]

theorem memRead_memWrite (mem : List α) (off : ℕ) (b : List α) (h : off + b.length ≤ mem.length) :
    memRead (memWrite mem off b) off b.length = b := by
  have hl : (mem.take off).length = off := by simp; omega
  rw [memRead, memWrite, List.append_assoc, List.drop_append_of_le_length (by omega),
    List.drop_of_length_le (by omega), List.nil_append, List.take_append_of_le_length le_rfl,
    List.take_length]

/-- A longer write over the same window hides the shorter one. -/
theorem memWrite_memWrite_of_length_le (mem : List α) (off : ℕ) {b b' : List α}
    (hb : b.length ≤ b'.length) (h : off + b'.length ≤ mem.length) :
    memWrite (memWrite mem off b) off b' = memWrite mem off b' := by
  rw [memWrite, take_memWrite_of_le mem off b le_rfl (by omega),
    drop_memWrite_of_le mem off b (by omega) (by omega)]
  rfl

/-- Two adjacent writes are one write of both. -/
theorem memWrite_memWrite_append (mem : List α) (off : ℕ) (b b' : List α)
    (h : off + b.length + b'.length ≤ mem.length) :
    memWrite (memWrite mem off b) (off + b.length) b' = memWrite mem off (b ++ b') := by
  rw [memWrite, take_memWrite_self mem off b (by omega),
    drop_memWrite_of_le mem off b (j := off + b.length + b'.length) (by omega) (by omega),
    memWrite, List.length_append, Nat.add_assoc]
  simp only [List.append_assoc]

/-- Past the first `k` bytes of a read from `off` is the read from `off + k`. -/
theorem memRead_drop (mem : List α) (off n k : ℕ) :
    (memRead mem off n).drop k = memRead mem (off + k) (n - k) := by
  rw [memRead, memRead, List.drop_take, List.drop_drop]

end Buffers

/-! ## Cipher states -/

/-- `NOISE_MAX_PAYLOAD_LEN` of noise-c: the largest transport packet. -/
def NOISE_MAX_PAYLOAD_LEN : ℕ := 65535
/-- `NOISE_MAX_PACKET_SIZE`. -/
def NOISE_MAX_PACKET_SIZE : ℕ := NOISE_MAX_PAYLOAD_LEN
/-- `NOISE_MAC_SIZE`. -/
def NOISE_MAC_SIZE : ℕ := 16
/-- `NOISE_MAX_DATA_SIZE`: the plaintext of a full packet. -/
def NOISE_MAX_DATA_SIZE : ℕ := NOISE_MAX_PACKET_SIZE - NOISE_MAC_SIZE

/-- The sizes, as numbers. -/
theorem noise_sizes : NOISE_MAC_SIZE = 16 ∧ NOISE_MAX_PACKET_SIZE = 65535 ∧
    NOISE_MAX_DATA_SIZE = 65519 ∧ NOISE_MAX_PAYLOAD_LEN = 65535 :=
  ⟨rfl, rfl, rfl, rfl⟩

/-- `err_NOISE__CIPHERSTATE__ENCRYPT__`. -/
def err_NOISE__CIPHERSTATE__ENCRYPT__ : ℕ := 3001000
/-- `err_NOISE__CIPHERSTATE__DECRYPT__`. -/
def err_NOISE__CIPHERSTATE__DECRYPT__ : ℕ := 3001100

/-- `noise_errort(space, noise_error)` for a failure: `space + noise_error - NOISE_ERROR_BASE`,
with the noise-c code given relative to `NOISE_ERROR_BASE`. -/
def noiseErrort (space noiseError : ℕ) : ErrorT := .external (space + noiseError)

/-- The authenticated cipher of a noise-c cipher state, packet by packet: `sealPacket n`
encrypts packet `n` and appends its tag, `openPacket n` checks and strips it. `invalidLength` and
`macFailure` are noise-c's codes (relative to `NOISE_ERROR_BASE`). -/
structure NoiseCipher where
  sealPacket : ℕ → List UInt8 → List UInt8
  openPacket : ℕ → List UInt8 → Option (List UInt8)
  invalidLength : ℕ
  macFailure : ℕ
  sealPacket_length : ∀ n p, (sealPacket n p).length = p.length + NOISE_MAC_SIZE
  openPacket_sealPacket : ∀ n p, openPacket n (sealPacket n p) = some p

variable (C : NoiseCipher)

/-- `noise_cipherstate_encrypt(state, &buf)` on the `size` bytes of `mem` at `off`, in a buffer
of `maxSize` bytes: the next nonce, the memory and the new size. -/
def noiseCipherstateEncrypt (n : ℕ) (mem : List UInt8) (off size maxSize : ℕ) :
    Except ℕ (ℕ × List UInt8 × ℕ) :=
  if maxSize < size + NOISE_MAC_SIZE ∨ NOISE_MAX_PAYLOAD_LEN < size + NOISE_MAC_SIZE then
    .error C.invalidLength
  else .ok (n + 1, memWrite mem off (C.sealPacket n (memRead mem off size)), size + NOISE_MAC_SIZE)

/-- `noise_cipherstate_decrypt(state, &buf)` on the `size` bytes of `mem` at `off`, in a buffer
of `maxSize` bytes. -/
def noiseCipherstateDecrypt (n : ℕ) (mem : List UInt8) (off size maxSize : ℕ) :
    Except ℕ (ℕ × List UInt8 × ℕ) :=
  if maxSize < size ∨ size < NOISE_MAC_SIZE ∨ NOISE_MAX_PAYLOAD_LEN < size then .error C.invalidLength
  else match C.openPacket n (memRead mem off size) with
    | some p => .ok (n + 1, memWrite mem off p, size - NOISE_MAC_SIZE)
    | none => .error C.macFailure

/-! ## The chunked messages -/

/-- The loop of `noise_encrypt_message` from `plaintext_offset` and `ciphertext_offset`; the
output buffer `out` is `*ciphertext_size` bytes long. -/
def noiseEncryptLoop (plaintext : List UInt8) (tx : ℕ) (out : List UInt8) (plaintextOffset ciphertextOffset : ℕ) :
    Option (Except ErrorT (ℕ × List UInt8 × ℕ)) :=
  if plaintextOffset < plaintext.length then
    let toEncrypt := if plaintextOffset + NOISE_MAX_DATA_SIZE > plaintext.length
      then plaintext.length - plaintextOffset else NOISE_MAX_DATA_SIZE
    if ciphertextOffset + toEncrypt > out.length then none
    else
      let out := memWrite out ciphertextOffset (memRead plaintext plaintextOffset toEncrypt)
      match noiseCipherstateEncrypt C tx out ciphertextOffset toEncrypt (out.length - ciphertextOffset) with
      | .error e => some (.error (noiseErrort err_NOISE__CIPHERSTATE__ENCRYPT__ e))
      | .ok (tx, out, size) =>
        noiseEncryptLoop plaintext tx out (plaintextOffset + NOISE_MAX_DATA_SIZE) (ciphertextOffset + size)
  else some (.ok (tx, out, ciphertextOffset))
termination_by plaintext.length - plaintextOffset
decreasing_by obtain ⟨-, -, hdata, -⟩ := noise_sizes; omega

/-- `noise_encrypt_message(tx, plaintext, size, ciphertext, &ciphertext_size)`: the new nonce,
the output buffer and `*ciphertext_size`. -/
def noiseEncryptMessage (tx : ℕ) (plaintext out : List UInt8) : Option (Except ErrorT (ℕ × List UInt8 × ℕ)) :=
  noiseEncryptLoop C plaintext tx out 0 0

/-- The loop of `noise_decrypt_message` over memory `mem` holding the `ciphertextSize` bytes of
ciphertext at `ciphertextData` and a plaintext buffer of `plaintextSize` bytes at
`plaintextData` (the two may overlap). -/
def noiseDecryptLoop (rx : ℕ) (mem : List UInt8) (ciphertextData ciphertextSize plaintextData plaintextSize : ℕ)
    (ciphertextOffset plaintextOffset : ℕ) : Option (Except ErrorT (ℕ × List UInt8 × ℕ)) :=
  if ciphertextOffset < ciphertextSize then
    let toDecrypt := if ciphertextOffset + NOISE_MAX_PACKET_SIZE > ciphertextSize
      then ciphertextSize - ciphertextOffset else NOISE_MAX_PACKET_SIZE
    if mem.length < ciphertextData + ciphertextOffset + toDecrypt ∨
        mem.length < plaintextData + plaintextOffset + toDecrypt then none
    else
      -- `memmove`: the packet is read before it is written
      let mem := memWrite mem (plaintextData + plaintextOffset)
        (memRead mem (ciphertextData + ciphertextOffset) toDecrypt)
      match noiseCipherstateDecrypt C rx mem (plaintextData + plaintextOffset) toDecrypt
          (plaintextSize - plaintextOffset) with
      | .error e => some (.error (noiseErrort err_NOISE__CIPHERSTATE__DECRYPT__ e))
      | .ok (rx, mem, size) =>
        noiseDecryptLoop rx mem ciphertextData ciphertextSize plaintextData plaintextSize
          (ciphertextOffset + NOISE_MAX_PACKET_SIZE) (plaintextOffset + size)
  else some (.ok (rx, mem, plaintextOffset))
termination_by ciphertextSize - ciphertextOffset
decreasing_by obtain ⟨-, hpkt, -, -⟩ := noise_sizes; omega

/-- `noise_decrypt_message(rx, ciphertext, ciphertext_size, plaintext, &plaintext_size)`: the new
nonce, the memory and `*plaintext_size`. -/
def noiseDecryptMessage (rx : ℕ) (mem : List UInt8) (ciphertextData ciphertextSize plaintextData plaintextSize : ℕ) :
    Option (Except ErrorT (ℕ × List UInt8 × ℕ)) :=
  noiseDecryptLoop C rx mem ciphertextData ciphertextSize plaintextData plaintextSize 0 0

/-- `noise_decrypt_message_inplace(rx, buf, &size)`: ciphertext and plaintext both at the start
of `buf`, and `*size` read as both sizes before the loop writes it. -/
def noiseDecryptMessageInplace (rx : ℕ) (buf : List UInt8) (size : ℕ) :
    Option (Except ErrorT (ℕ × List UInt8 × ℕ)) :=
  noiseDecryptMessage C rx buf 0 size 0 size

/-! ## The ciphertext of a plaintext -/

/-- The number of packets of `n` bytes: `⌈n / NOISE_MAX_DATA_SIZE⌉`. -/
def noisePackets (n : ℕ) : ℕ := (n + NOISE_MAX_DATA_SIZE - 1) / NOISE_MAX_DATA_SIZE

/-- `noisePackets n` is Mathlib's ceiling division `n ⌈/⌉ NOISE_MAX_DATA_SIZE`. -/
theorem noisePackets_eq_ceilDiv (n : ℕ) : noisePackets n = n ⌈/⌉ NOISE_MAX_DATA_SIZE :=
  (Nat.ceilDiv_eq_add_pred_div n _).symm

theorem noisePackets_zero : noisePackets 0 = 0 := rfl

theorem noisePackets_of_pos {n : ℕ} (hn : 0 < n) :
    noisePackets n = noisePackets (n - NOISE_MAX_DATA_SIZE) + 1 := by
  simp only [noisePackets, noise_sizes.2.2.1]
  omega

/-- What a plaintext should become: its `NOISE_MAX_DATA_SIZE`-byte pieces sealed under the
nonces `n, n + 1, …`, one after another. -/
def sealChunks (n : ℕ) (l : List UInt8) : List UInt8 :=
  if l = [] then []
  else C.sealPacket n (l.take NOISE_MAX_DATA_SIZE) ++ sealChunks (n + 1) (l.drop NOISE_MAX_DATA_SIZE)
termination_by l.length
decreasing_by
  have : l.length ≠ 0 := by simpa using ‹¬l = []›
  obtain ⟨-, -, hdata, -⟩ := noise_sizes
  rw [List.length_drop]
  omega

theorem sealChunks_nil (n : ℕ) : sealChunks C n [] = [] := by
  rw [sealChunks, if_pos rfl]

theorem sealChunks_of_ne_nil {n : ℕ} {l : List UInt8} (hl : l ≠ []) :
    sealChunks C n l = C.sealPacket n (l.take NOISE_MAX_DATA_SIZE) ++
      sealChunks C (n + 1) (l.drop NOISE_MAX_DATA_SIZE) := by
  rw [sealChunks, if_neg hl]

/-- A plaintext of `L` bytes becomes `L + NOISE_MAC_SIZE * ⌈L / NOISE_MAX_DATA_SIZE⌉` bytes. -/
theorem sealChunks_length (n : ℕ) (l : List UInt8) :
    (sealChunks C n l).length = l.length + NOISE_MAC_SIZE * noisePackets l.length := by
  induction n, l using sealChunks.induct with
  | case1 n => rw [sealChunks_nil, List.length_nil, noisePackets_zero, Nat.mul_zero]
  | case2 n l hl ih =>
    have hpos : 0 < l.length := List.length_pos_of_ne_nil hl
    rw [sealChunks_of_ne_nil C hl, List.length_append, C.sealPacket_length, ih,
      noisePackets_of_pos hpos, List.length_take, List.length_drop, Nat.mul_succ]
    omega

/-! ## Encryption -/

section Encrypt

variable {C} (plaintext : List UInt8)

/-- The piece `noise_encrypt_message` copies at `plaintext_offset`: the next
`NOISE_MAX_DATA_SIZE` bytes, or what is left. -/
theorem memRead_toEncrypt {plaintextOffset : ℕ} :
    memRead plaintext plaintextOffset
        (if plaintextOffset + NOISE_MAX_DATA_SIZE > plaintext.length
          then plaintext.length - plaintextOffset else NOISE_MAX_DATA_SIZE) =
      (plaintext.drop plaintextOffset).take NOISE_MAX_DATA_SIZE := by
  rw [memRead]
  split_ifs with h
  · rw [List.take_of_length_le (by simp), List.take_of_length_le (by simp; omega)]
  · rfl

/-- `to_encrypt` is the length of that piece. -/
theorem toEncrypt_eq_length (plaintextOffset : ℕ) :
    (if plaintextOffset + NOISE_MAX_DATA_SIZE > plaintext.length
      then plaintext.length - plaintextOffset else NOISE_MAX_DATA_SIZE) =
      ((plaintext.drop plaintextOffset).take NOISE_MAX_DATA_SIZE).length := by
  rw [List.length_take, List.length_drop]
  split_ifs <;> omega

/-- **One round of the encryption loop**: with room for the sealed piece, the loop seals the next
piece at the output offset and goes on with the next nonce. -/
theorem noiseEncryptLoop_step {tx plaintextOffset ciphertextOffset : ℕ} {out : List UInt8}
    (hpo : plaintextOffset < plaintext.length)
    (hroom : ciphertextOffset + ((plaintext.drop plaintextOffset).take NOISE_MAX_DATA_SIZE).length +
      NOISE_MAC_SIZE ≤ out.length) :
    noiseEncryptLoop C plaintext tx out plaintextOffset ciphertextOffset =
      noiseEncryptLoop C plaintext (tx + 1)
        (memWrite out ciphertextOffset
          (C.sealPacket tx ((plaintext.drop plaintextOffset).take NOISE_MAX_DATA_SIZE)))
        (plaintextOffset + NOISE_MAX_DATA_SIZE)
        (ciphertextOffset + ((plaintext.drop plaintextOffset).take NOISE_MAX_DATA_SIZE).length +
          NOISE_MAC_SIZE) := by
  have hte := toEncrypt_eq_length plaintext plaintextOffset
  generalize hchunk : (plaintext.drop plaintextOffset).take NOISE_MAX_DATA_SIZE = chunk at hte hroom ⊢
  have hsmall : chunk.length + NOISE_MAC_SIZE ≤ NOISE_MAX_PAYLOAD_LEN := by
    have : chunk.length ≤ NOISE_MAX_DATA_SIZE := hchunk ▸ List.length_take_le _ _
    obtain ⟨hmac, -, hdata, hmax⟩ := noise_sizes
    omega
  have hlen := memWrite_length out ciphertextOffset chunk (by omega)
  rw [noiseEncryptLoop, if_pos hpo]
  dsimp only
  rw [memRead_toEncrypt plaintext, hchunk, hte, if_neg (by omega)]
  -- the cipher reads back the copied piece and has room for its tag
  rw [noiseCipherstateEncrypt, if_neg (by rw [hlen]; omega), memRead_memWrite out ciphertextOffset chunk (by omega),
    memWrite_memWrite_of_length_le out ciphertextOffset (by rw [C.sealPacket_length]; omega)
      (by rw [C.sealPacket_length]; omega)]
  dsimp only
  rw [Nat.add_assoc]

/-- **The encryption loop seals what is left**: with room for it, the loop from
`plaintext_offset` writes the sealed rest of the plaintext at `ciphertext_offset`, one nonce a
packet. -/
theorem noiseEncryptLoop_spec (plaintextOffset ciphertextOffset tx : ℕ) (out : List UInt8)
    (hroom : ciphertextOffset + (sealChunks C tx (plaintext.drop plaintextOffset)).length ≤ out.length) :
    noiseEncryptLoop C plaintext tx out plaintextOffset ciphertextOffset =
      some (.ok (tx + noisePackets (plaintext.length - plaintextOffset),
        memWrite out ciphertextOffset (sealChunks C tx (plaintext.drop plaintextOffset)),
        ciphertextOffset + (sealChunks C tx (plaintext.drop plaintextOffset)).length)) := by
  by_cases hpo : plaintextOffset < plaintext.length
  · have hne : plaintext.drop plaintextOffset ≠ [] := by
      rw [Ne, List.drop_eq_nil_iff]
      omega
    rw [sealChunks_of_ne_nil C hne] at hroom ⊢
    rw [List.length_append, C.sealPacket_length] at hroom
    rw [noiseEncryptLoop_step plaintext hpo (by omega), List.drop_drop,
      noiseEncryptLoop_spec (plaintextOffset + NOISE_MAX_DATA_SIZE) _ (tx + 1) _
        (by rw [memWrite_length _ _ _ (by rw [C.sealPacket_length]; omega), ← List.drop_drop]; omega),
      ← List.drop_drop, noisePackets_of_pos (Nat.sub_pos_of_lt hpo),
      ← memWrite_memWrite_append out ciphertextOffset _ _ (by rw [C.sealPacket_length]; omega),
      C.sealPacket_length, List.length_append, C.sealPacket_length]
    -- the rest of the plaintext after this piece, and the arithmetic of the offsets
    have hrest : plaintext.length - (plaintextOffset + NOISE_MAX_DATA_SIZE) =
        plaintext.length - plaintextOffset - NOISE_MAX_DATA_SIZE := by omega
    rw [hrest]
    ac_rfl
  · have hnil : plaintext.drop plaintextOffset = [] := List.drop_eq_nil_iff.2 (by omega)
    rw [noiseEncryptLoop, if_neg hpo, hnil, sealChunks_nil, memWrite_nil,
      Nat.sub_eq_zero_of_le (not_lt.1 hpo), noisePackets_zero]
    rfl
termination_by plaintext.length - plaintextOffset
decreasing_by obtain ⟨-, -, hdata, -⟩ := noise_sizes; omega

/-- Without room for the sealed rest, the encryption loop does not succeed: a copy runs past the
output buffer, or the cipher finds no room for a tag. -/
theorem noiseEncryptLoop_needs_room (plaintextOffset ciphertextOffset tx : ℕ) (out : List UInt8)
    (hco : ciphertextOffset ≤ out.length)
    (hshort : out.length < ciphertextOffset + (sealChunks C tx (plaintext.drop plaintextOffset)).length)
    (r : ℕ × List UInt8 × ℕ) :
    noiseEncryptLoop C plaintext tx out plaintextOffset ciphertextOffset ≠ some (.ok r) := by
  by_cases hpo : plaintextOffset < plaintext.length
  · have hne : plaintext.drop plaintextOffset ≠ [] := by
      rw [Ne, List.drop_eq_nil_iff]
      omega
    rw [sealChunks_of_ne_nil C hne, List.length_append, C.sealPacket_length] at hshort
    by_cases hroom : ciphertextOffset + ((plaintext.drop plaintextOffset).take NOISE_MAX_DATA_SIZE).length +
        NOISE_MAC_SIZE ≤ out.length
    · have hlen := memWrite_length out ciphertextOffset
        (C.sealPacket tx ((plaintext.drop plaintextOffset).take NOISE_MAX_DATA_SIZE))
        (by rw [C.sealPacket_length]; omega)
      rw [noiseEncryptLoop_step plaintext hpo hroom]
      exact noiseEncryptLoop_needs_room _ _ _ _ (by rw [hlen]; exact hroom)
        (by rw [hlen, ← List.drop_drop]; omega) r
    · -- this round fails: the copy runs past the buffer, or the cipher refuses
      have hte := toEncrypt_eq_length plaintext plaintextOffset
      rw [noiseEncryptLoop, if_pos hpo]
      dsimp only
      rw [memRead_toEncrypt plaintext, hte]
      split_ifs with hcopy
      · simp
      · rw [noiseCipherstateEncrypt, if_pos (Or.inl (by
          rw [memWrite_length _ _ _ (by rw [List.length_take, List.length_drop] at hcopy ⊢; omega)]
          omega))]
        simp
  · have hnil : plaintext.drop plaintextOffset = [] := List.drop_eq_nil_iff.2 (by omega)
    rw [hnil, sealChunks_nil] at hshort
    simp at hshort
    omega
termination_by plaintext.length - plaintextOffset
decreasing_by obtain ⟨-, -, hdata, -⟩ := noise_sizes; omega

end Encrypt

/-! ## Decryption in place -/

section Decrypt

variable {C}

/-- The first packet of a sealed plaintext is what `noise_decrypt_message` cuts off: all that is
left if that is less than `NOISE_MAX_PACKET_SIZE`, else that many bytes. -/
theorem min_sealChunks_length {n : ℕ} {r : List UInt8} (hr : r ≠ []) :
    min (sealChunks C n r).length NOISE_MAX_PACKET_SIZE =
      (C.sealPacket n (r.take NOISE_MAX_DATA_SIZE)).length := by
  have hpos := List.length_pos_of_ne_nil hr
  rw [sealChunks_length, C.sealPacket_length, List.length_take]
  obtain ⟨hmac, hpkt, hdata, -⟩ := noise_sizes
  simp only [noisePackets, hmac, hpkt, hdata]
  omega

/-- Every packet but the last is full. -/
theorem sealPacket_length_of_drop_ne_nil {n : ℕ} {r : List UInt8}
    (hrest : r.drop NOISE_MAX_DATA_SIZE ≠ []) :
    (C.sealPacket n (r.take NOISE_MAX_DATA_SIZE)).length = NOISE_MAX_PACKET_SIZE := by
  rw [Ne, List.drop_eq_nil_iff] at hrest
  rw [C.sealPacket_length, List.length_take]
  obtain ⟨hmac, hpkt, hdata, -⟩ := noise_sizes
  omega

/-- **One round of the in-place decryption**: while ciphertext is left, the loop moves the next
packet down to the plaintext offset, opens it there and goes on past it with the next nonce. -/
theorem noiseDecryptLoop_step {rx size ciphertextOffset plaintextOffset : ℕ} {mem r : List UInt8}
    (hmem : size ≤ mem.length) (hoff : plaintextOffset ≤ ciphertextOffset) (hr : r ≠ [])
    (hlen : size - ciphertextOffset = (sealChunks C rx r).length)
    (hread : memRead mem ciphertextOffset (size - ciphertextOffset) = sealChunks C rx r) :
    noiseDecryptLoop C rx mem 0 size 0 size ciphertextOffset plaintextOffset =
      noiseDecryptLoop C (rx + 1)
        (memWrite (memWrite mem plaintextOffset (C.sealPacket rx (r.take NOISE_MAX_DATA_SIZE)))
          plaintextOffset (r.take NOISE_MAX_DATA_SIZE))
        0 size 0 size (ciphertextOffset + NOISE_MAX_PACKET_SIZE)
        (plaintextOffset + (r.take NOISE_MAX_DATA_SIZE).length) := by
  have hmin := min_sealChunks_length (C := C) (n := rx) hr
  generalize hpacket : C.sealPacket rx (r.take NOISE_MAX_DATA_SIZE) = packet at hmin ⊢
  have hplen : packet.length = (r.take NOISE_MAX_DATA_SIZE).length + NOISE_MAC_SIZE := by
    rw [← hpacket, C.sealPacket_length]
  have hpos : 0 < (sealChunks C rx r).length := by
    rw [sealChunks_length]
    exact Nat.add_pos_left (List.length_pos_of_ne_nil hr) _
  have htd : (if ciphertextOffset + NOISE_MAX_PACKET_SIZE > size
      then size - ciphertextOffset else NOISE_MAX_PACKET_SIZE) = packet.length := by
    rw [← hmin, ← hlen]
    split_ifs <;> omega
  -- the bytes moved are the first packet
  have hmoved : memRead mem ciphertextOffset packet.length = packet := by
    have htake : memRead mem ciphertextOffset packet.length =
        (memRead mem ciphertextOffset (size - ciphertextOffset)).take packet.length := by
      rw [memRead, memRead, List.take_take, min_eq_left (by omega)]
    rw [htake, hread, sealChunks_of_ne_nil C hr, hpacket, List.take_left' rfl]
  have hmacsize : NOISE_MAC_SIZE ≤ packet.length := by omega
  have hmax : packet.length ≤ NOISE_MAX_PAYLOAD_LEN := by
    have := min_le_right (sealChunks C rx r).length NOISE_MAX_PACKET_SIZE
    rw [hmin] at this
    exact this
  rw [noiseDecryptLoop, if_pos (by omega)]
  dsimp only
  rw [htd, Nat.zero_add, Nat.zero_add, if_neg (by omega), hmoved, noiseCipherstateDecrypt,
    if_neg (by omega), memRead_memWrite mem plaintextOffset packet (by omega), ← hpacket,
    C.openPacket_sealPacket]
  dsimp only
  rw [hpacket, hplen, Nat.add_sub_cancel]

/-- **The in-place decryption loop opens what is left**: with the sealed rest of a plaintext
between `ciphertext_offset` and the end, the loop from there leaves that rest after the
plaintext already written, one nonce a packet. -/
theorem noiseDecryptLoop_spec {size : ℕ} (rx ciphertextOffset plaintextOffset : ℕ) (mem r : List UInt8)
    (hmem : size ≤ mem.length) (hoff : plaintextOffset ≤ ciphertextOffset)
    (hlen : size - ciphertextOffset = (sealChunks C rx r).length)
    (hread : memRead mem ciphertextOffset (size - ciphertextOffset) = sealChunks C rx r) :
    ∃ mem', noiseDecryptLoop C rx mem 0 size 0 size ciphertextOffset plaintextOffset =
        some (.ok (rx + noisePackets r.length, mem', plaintextOffset + r.length)) ∧
      mem'.take (plaintextOffset + r.length) = mem.take plaintextOffset ++ r := by
  obtain ⟨hmac, hpkt, hdata, -⟩ := noise_sizes
  by_cases hr : r = []
  · subst hr
    rw [sealChunks_nil, List.length_nil] at hlen
    refine ⟨mem, ?_, by simp⟩
    rw [noiseDecryptLoop, if_neg (by omega), List.length_nil, noisePackets_zero]
    rfl
  set chunk := r.take NOISE_MAX_DATA_SIZE with hchunk
  set packet := C.sealPacket rx chunk with hpacket
  have hsplit : sealChunks C rx r = packet ++ sealChunks C (rx + 1) (r.drop NOISE_MAX_DATA_SIZE) :=
    sealChunks_of_ne_nil C hr
  have hplen : packet.length = chunk.length + NOISE_MAC_SIZE := C.sealPacket_length _ _
  have hchunk_le : chunk.length ≤ NOISE_MAX_DATA_SIZE := List.length_take_le _ _
  have hlen' : size - ciphertextOffset =
      packet.length + (sealChunks C (rx + 1) (r.drop NOISE_MAX_DATA_SIZE)).length := by
    rw [hlen, hsplit, List.length_append]
  have hmem₁ := memWrite_length mem plaintextOffset packet (by omega)
  have hmem₂ := memWrite_length (memWrite mem plaintextOffset packet) plaintextOffset chunk (by omega)
  -- the sealed rest lies after this packet, in bytes neither write touched
  have hrest : size - (ciphertextOffset + NOISE_MAX_PACKET_SIZE) =
        (sealChunks C (rx + 1) (r.drop NOISE_MAX_DATA_SIZE)).length ∧
      memRead (memWrite (memWrite mem plaintextOffset packet) plaintextOffset chunk)
        (ciphertextOffset + NOISE_MAX_PACKET_SIZE) (size - (ciphertextOffset + NOISE_MAX_PACKET_SIZE)) =
        sealChunks C (rx + 1) (r.drop NOISE_MAX_DATA_SIZE) := by
    by_cases hlast : r.drop NOISE_MAX_DATA_SIZE = []
    · have hle : packet.length ≤ NOISE_MAX_PACKET_SIZE := by omega
      rw [hlast, sealChunks_nil] at hlen' ⊢
      simp only [List.length_nil, Nat.add_zero] at hlen'
      have hzero : size - (ciphertextOffset + NOISE_MAX_PACKET_SIZE) = 0 := by omega
      rw [hzero, memRead, List.take_zero]
      exact ⟨rfl, rfl⟩
    · have hfull : packet.length = NOISE_MAX_PACKET_SIZE := sealPacket_length_of_drop_ne_nil hlast
      have hdrop : (memWrite (memWrite mem plaintextOffset packet) plaintextOffset chunk).drop
          (ciphertextOffset + NOISE_MAX_PACKET_SIZE) = mem.drop (ciphertextOffset + NOISE_MAX_PACKET_SIZE) := by
        rw [drop_memWrite_of_le _ _ _ (by omega) (by omega), drop_memWrite_of_le _ _ _ (by omega) (by omega)]
      refine ⟨by omega, ?_⟩
      rw [memRead, hdrop, ← memRead, ← hfull, Nat.sub_add_eq, ← memRead_drop, hread, hsplit,
        List.drop_left' rfl]
  have hmem' : size ≤ (memWrite (memWrite mem plaintextOffset packet) plaintextOffset chunk).length := by
    omega
  have hoff' : plaintextOffset + chunk.length ≤ ciphertextOffset + NOISE_MAX_PACKET_SIZE := by omega
  have hprogress : ciphertextOffset < size := by omega
  obtain ⟨mem', hloop, htake⟩ := noiseDecryptLoop_spec (rx + 1) (ciphertextOffset + NOISE_MAX_PACKET_SIZE)
    (plaintextOffset + chunk.length) _ (r.drop NOISE_MAX_DATA_SIZE) hmem' hoff' hrest.1 hrest.2
  have hr_len : chunk.length + (r.drop NOISE_MAX_DATA_SIZE).length = r.length := by
    rw [hchunk, List.length_take, List.length_drop]
    omega
  refine ⟨mem', ?_, ?_⟩
  · rw [noiseDecryptLoop_step hmem hoff hr hlen hread, hloop,
      noisePackets_of_pos (List.length_pos_of_ne_nil hr), ← List.length_drop, ← hr_len]
    ac_rfl
  · rw [← hr_len, ← Nat.add_assoc, htake, take_memWrite_self _ _ _ (by omega),
      take_memWrite_of_le _ _ _ le_rfl (by omega), List.append_assoc, hchunk, List.take_append_drop]
termination_by size - ciphertextOffset
decreasing_by obtain ⟨-, hpkt, -, -⟩ := noise_sizes; omega

end Decrypt

/-! ## The round trip -/

/-- **Chunked encryption round-trips.** For every plaintext of `L` bytes and cipher states at
one nonce `n`, `noise_encrypt_message` succeeds only with an output buffer of at least
`L + NOISE_MAC_SIZE * ⌈L / NOISE_MAX_DATA_SIZE⌉` bytes; with one, it produces exactly that many,
and `noise_decrypt_message_inplace` on them in the same buffer succeeds and leaves the plaintext
at its start. Both nonces end at `n + ⌈L / NOISE_MAX_DATA_SIZE⌉`. -/
theorem noiseEncryptMessage_roundtrip (C : NoiseCipher) (n : ℕ) (plaintext out : List UInt8) :
    (∀ r, noiseEncryptMessage C n plaintext out = some (.ok r) →
      plaintext.length + NOISE_MAC_SIZE * noisePackets plaintext.length ≤ out.length) ∧
    (plaintext.length + NOISE_MAC_SIZE * noisePackets plaintext.length ≤ out.length →
      ∃ out' buf, noiseEncryptMessage C n plaintext out =
          some (.ok (n + noisePackets plaintext.length, out',
            plaintext.length + NOISE_MAC_SIZE * noisePackets plaintext.length)) ∧
        noiseDecryptMessageInplace C n out'
            (plaintext.length + NOISE_MAC_SIZE * noisePackets plaintext.length) =
          some (.ok (n + noisePackets plaintext.length, buf, plaintext.length)) ∧
        buf.take plaintext.length = plaintext) := by
  have hsealed := sealChunks_length C n plaintext
  refine ⟨fun r hr => ?_, fun hroom => ?_⟩
  · -- a buffer too short for the ciphertext makes the loop fail
    by_contra hshort
    refine noiseEncryptLoop_needs_room plaintext 0 0 n out (Nat.zero_le _) ?_ r hr
    rw [List.drop_zero, hsealed, Nat.zero_add]
    omega
  · -- the encryption writes the sealed plaintext at the start of the buffer ...
    rw [← hsealed] at hroom ⊢
    have hlen := memWrite_length out 0 (sealChunks C n plaintext) (by omega)
    have henc := noiseEncryptLoop_spec (C := C) plaintext 0 0 n out (by rw [List.drop_zero]; omega)
    rw [List.drop_zero, Nat.sub_zero, Nat.zero_add] at henc
    -- ... from where the in-place decryption reads it back
    have hmem : (sealChunks C n plaintext).length ≤ (memWrite out 0 (sealChunks C n plaintext)).length := by
      omega
    have hread : memRead (memWrite out 0 (sealChunks C n plaintext)) 0
        ((sealChunks C n plaintext).length - 0) = sealChunks C n plaintext := by
      rw [Nat.sub_zero, memRead_memWrite out 0 _ (by omega)]
    obtain ⟨buf, hdec, htake⟩ := noiseDecryptLoop_spec n 0 0 (memWrite out 0 (sealChunks C n plaintext))
      plaintext hmem le_rfl (Nat.sub_zero _) hread
    rw [Nat.zero_add] at hdec htake
    exact ⟨_, buf, henc, hdec, htake⟩

/-- A cipher whose tag is its nonce: `sealPacket n` appends `NOISE_MAC_SIZE` bytes `n`, and
`openPacket n` checks that a packet ends in them and strips them. -/
def tagCipher : NoiseCipher where
  sealPacket n p := p ++ List.replicate NOISE_MAC_SIZE (UInt8.ofNat n)
  openPacket n c :=
    if NOISE_MAC_SIZE ≤ c.length ∧
        c.drop (c.length - NOISE_MAC_SIZE) = List.replicate NOISE_MAC_SIZE (UInt8.ofNat n) then
      some (c.take (c.length - NOISE_MAC_SIZE))
    else none
  invalidLength := 1
  macFailure := 2
  sealPacket_length n p := by simp
  openPacket_sealPacket n p := by simp

theorem noiseEncryptMessage_roundtrip_tagCipher :
    ∃ out' buf, noiseEncryptMessage tagCipher 0 [1, 2, 3] (List.replicate 19 0) =
        some (.ok (1, out', 19)) ∧
      noiseDecryptMessageInplace tagCipher 0 out' 19 = some (.ok (1, buf, 3)) ∧
      buf.take 3 = [1, 2, 3] := by
  have hroom : [(1 : UInt8), 2, 3].length + NOISE_MAC_SIZE * noisePackets [(1 : UInt8), 2, 3].length ≤
      (List.replicate 19 (0 : UInt8)).length := by decide
  exact (noiseEncryptMessage_roundtrip tagCipher 0 [1, 2, 3] (List.replicate 19 0)).2 hroom

end ContactDiscovery
