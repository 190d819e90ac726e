import AionR.Lib.BigEndian

/-!
# A growable byte buffer

`compute_bundle_hash` assembles the bytes it hashes in a `ByteBuffer` of the `bytebuffer` crate.
What it uses of the crate is a parameter, `ByteBufferApi`: a new buffer, `resize`, `write_bytes`,
`to_bytes` and the write position, with how they act while the buffer is large enough. `resize`
appends zero bytes, and `write_bytes` overwrites from the write position on and moves the
position past what it wrote.

`ByteBuffer` is an implementation (`byteBufferCrate`): a vector of bytes with a write position,
which `write_bytes` grows first when the bytes run past its end.

A buffer resized to its final size before it is written holds what was written, followed by zeros
up to that size (`Filled.writeBytes`).
-/

namespace AionR

/-- What the bridge uses of the `bytebuffer` crate, over the crate's buffer type. -/
class ByteBufferApi (Buffer : outParam Type) where
  /-- `ByteBuffer::new`. -/
  new : Buffer
  /-- `resize`. -/
  resize : Buffer → ℕ → Buffer
  /-- `write_bytes`. -/
  writeBytes : Buffer → Bytes → Buffer
  /-- `to_bytes`. -/
  toBytes : Buffer → Bytes
  /-- `get_wpos`. -/
  getWpos : Buffer → ℕ
  toBytes_new : toBytes new = []
  getWpos_new : getWpos new = 0
  /-- Growing a buffer appends zero bytes and keeps the write position. The crate computes
  `size - len` as a `usize`, so shrinking is not covered. -/
  toBytes_resize : ∀ b size, (toBytes b).length ≤ size →
    toBytes (resize b size) = toBytes b ++ List.replicate (size - (toBytes b).length) 0
  getWpos_resize : ∀ b size, (toBytes b).length ≤ size → getWpos (resize b size) = getWpos b
  /-- Bytes that fit are written over the buffer's own from the write position on, which then
  moves past them. -/
  toBytes_writeBytes : ∀ b bytes, getWpos b + bytes.length ≤ (toBytes b).length →
    toBytes (writeBytes b bytes) =
      (toBytes b).take (getWpos b) ++ bytes ++ (toBytes b).drop (getWpos b + bytes.length)
  getWpos_writeBytes : ∀ b bytes, getWpos b + bytes.length ≤ (toBytes b).length →
    getWpos (writeBytes b bytes) = getWpos b + bytes.length

namespace ByteBufferApi

variable {Buffer : Type} [ByteBufferApi Buffer]

/-- The buffer holds `written` and then `k` zero bytes, and writes next after `written`. -/
def Filled (b : Buffer) (written : Bytes) (k : ℕ) : Prop :=
  toBytes b = written ++ List.replicate k 0 ∧ getWpos b = written.length

/-- A new buffer resized to `size` holds `size` zeros. -/
theorem filled_resize_new (size : ℕ) : Filled (resize (new : Buffer) size) [] size := by
  have hle : (toBytes (new : Buffer)).length ≤ size := by
    rw [toBytes_new]
    exact Nat.zero_le _
  constructor
  · rw [toBytes_resize _ _ hle, toBytes_new, List.length_nil, Nat.sub_zero]
  · rw [getWpos_resize _ _ hle, getWpos_new, List.length_nil]

/-- Writing into the zero tail of a buffer replaces that many of its zeros. -/
theorem Filled.writeBytes {b : Buffer} {written : Bytes} {k : ℕ} (hb : Filled b written k)
    (bytes : Bytes) (hk : bytes.length ≤ k) :
    Filled (writeBytes b bytes) (written ++ bytes) (k - bytes.length) := by
  obtain ⟨hdata, hpos⟩ := hb
  have hfit : getWpos b + bytes.length ≤ (toBytes b).length := by
    rw [hdata, hpos, List.length_append, List.length_replicate]
    omega
  have hdrop : (written ++ List.replicate k 0).drop (written.length + bytes.length) =
      List.replicate (k - bytes.length) 0 := by
    rw [List.drop_append, List.drop_replicate, List.drop_of_length_le (by omega),
      Nat.add_sub_cancel_left, List.nil_append]
  constructor
  · rw [toBytes_writeBytes _ _ hfit, hdata, hpos, List.take_left' rfl, hdrop, List.append_assoc]
  · rw [getWpos_writeBytes _ _ hfit, hpos, List.length_append]

end ByteBufferApi

/-- A byte buffer with its write position. -/
structure ByteBuffer where
  data : Bytes
  wpos : ℕ
  deriving DecidableEq, Repr

namespace ByteBuffer

/-- `ByteBuffer::new`. -/
def new : ByteBuffer := ⟨[], 0⟩

/-- `resize`: zero bytes up to `size`. -/
def resize (b : ByteBuffer) (size : ℕ) : ByteBuffer :=
  { b with data := b.data ++ List.replicate (size - b.data.length) 0 }

/-- `write_bytes`: overwrite from the write position on, after growing the buffer to fit. -/
def writeBytes (b : ByteBuffer) (bytes : Bytes) : ByteBuffer :=
  let b := if bytes.length + b.wpos > b.data.length then b.resize (bytes.length + b.wpos) else b
  ⟨b.data.take b.wpos ++ bytes ++ b.data.drop (b.wpos + bytes.length), b.wpos + bytes.length⟩

/-- `to_bytes`. -/
def toBytes (b : ByteBuffer) : Bytes := b.data

theorem writeBytes_of_le (b : ByteBuffer) {bytes : Bytes}
    (h : b.wpos + bytes.length ≤ b.data.length) :
    b.writeBytes bytes = ⟨b.data.take b.wpos ++ bytes ++ b.data.drop (b.wpos + bytes.length),
      b.wpos + bytes.length⟩ := by
  rw [writeBytes, if_neg (by omega)]

end ByteBuffer

/-- `ByteBuffer` is an implementation of what the bridge uses of the crate. -/
@[reducible] def byteBufferCrate : ByteBufferApi ByteBuffer where
  new := ByteBuffer.new
  resize := ByteBuffer.resize
  writeBytes := ByteBuffer.writeBytes
  toBytes := ByteBuffer.toBytes
  getWpos := ByteBuffer.wpos
  toBytes_new := rfl
  getWpos_new := rfl
  toBytes_resize _ _ _ := rfl
  getWpos_resize _ _ _ := rfl
  toBytes_writeBytes b _ h := by rw [ByteBuffer.writeBytes_of_le b h]; rfl
  getWpos_writeBytes b _ h := by rw [ByteBuffer.writeBytes_of_le b h]

end AionR
