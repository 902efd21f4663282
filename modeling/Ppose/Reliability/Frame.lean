import Ppose.Foundations.BigEndian

/-!
# Inner frames

The plaintext frames carried inside Noise transport messages
(`reliability/frame.rs`): application fragments (`DATA`) and selective
acknowledgements (`ACK`), with their byte layouts

```text
DATA  01 | seq u32 | frag_id u16 | index u8 | total u8 | payload
ACK   02 | base u32 | bitmap u64
```

Both encoders are inverted by `decodeInner` whenever the fragment header is
consistent.  Conversely `decodeInner` accepts nothing else: `decodeInner_cases`
says of every byte string what it is decoded to and which frame it encodes.
-/

namespace Ppose

/-- Maximum application bytes per DATA fragment. -/
def maxPayload : ℕ := 1024

/-- DATA inner header: kind(1) + seq(4) + frag_id(2) + index(1) + total(1). -/
def dataHdrLen : ℕ := 9

/-- ACK inner size: kind(1) + base(4) + bitmap(8). -/
def ackLen : ℕ := 13

inductive InnerFrame where
  | data (seq : UInt32) (fragId : UInt16) (index total : UInt8) (payload : Bytes)
  /-- Selective acknowledgement: bit `i` of `bitmap` reports `base + i`. -/
  | ack (base : UInt32) (bitmap : UInt64)
  deriving DecidableEq, Repr

inductive FrameError where
  | truncated
  | badKind
  | badFragment
  deriving DecidableEq, Repr

def encodeData (seq : UInt32) (fragId : UInt16) (index total : UInt8) (payload : Bytes) : Bytes :=
  [0x01] ++ BigEndian.encode 4 seq.toNat ++ BigEndian.encode 2 fragId.toNat ++
    [index] ++ [total] ++ payload

def encodeAck (base : UInt32) (bitmap : UInt64) : Bytes :=
  [0x02] ++ BigEndian.encode 4 base.toNat ++ BigEndian.encode 8 bitmap.toNat

def decodeInner (bytes : Bytes) : Except FrameError InnerFrame :=
  match bytes with
  | [] => .error .truncated
  | kind :: _ =>
      if kind = 0x01 then
        if bytes.length < dataHdrLen then .error .truncated
        else
          let seq := UInt32.ofNat (BigEndian.decode (slice bytes 1 5))
          let fragId := UInt16.ofNat (BigEndian.decode (slice bytes 5 7))
          let index := bytes.getD 7 0
          let total := bytes.getD 8 0
          if total = 0 ∨ total ≤ index then .error .badFragment
          else .ok (.data seq fragId index total (bytes.drop dataHdrLen))
      else if kind = 0x02 then
        if bytes.length < ackLen then .error .truncated
        else
          let base := UInt32.ofNat (BigEndian.decode (slice bytes 1 5))
          let bitmap := UInt64.ofNat (BigEndian.decode (slice bytes 5 13))
          .ok (.ack base bitmap)
      else .error .badKind

theorem length_encodeData (seq : UInt32) (fragId : UInt16) (index total : UInt8)
    (payload : Bytes) :
    (encodeData seq fragId index total payload).length = dataHdrLen + payload.length := by
  simp [encodeData, dataHdrLen]
  omega

@[simp]
theorem length_encodeAck (base : UInt32) (bitmap : UInt64) :
    (encodeAck base bitmap).length = ackLen := by
  simp [encodeAck, ackLen]

theorem slice_seq_encodeData (seq : UInt32) (fragId : UInt16) (index total : UInt8)
    (payload : Bytes) :
    slice (encodeData seq fragId index total payload) 1 5 = BigEndian.encode 4 seq.toNat := by
  simp only [encodeData, List.append_assoc]
  exact slice_append_of_length (by simp) (by simp)

theorem slice_fragId_encodeData (seq : UInt32) (fragId : UInt16) (index total : UInt8)
    (payload : Bytes) :
    slice (encodeData seq fragId index total payload) 5 7 = BigEndian.encode 2 fragId.toNat := by
  simp only [encodeData, List.append_assoc]
  rw [← List.append_assoc]
  exact slice_append_of_length (by simp) (by simp)

theorem drop_encodeData (seq : UInt32) (fragId : UInt16) (index total : UInt8)
    (payload : Bytes) :
    (encodeData seq fragId index total payload).drop 7 = index :: total :: payload := by
  simp only [encodeData, List.append_assoc]
  rw [← List.append_assoc, ← List.append_assoc]
  exact List.drop_left' (by simp)

theorem not_zero_or_le_iff {index total : UInt8} :
    ¬(total = 0 ∨ total ≤ index) ↔ index < total := by
  simp only [← UInt8.toNat_inj, UInt8.le_iff_toNat_le, UInt8.lt_iff_toNat_lt, UInt8.toNat_zero]
  omega

theorem decodeInner_dataKind (rest : Bytes) :
    decodeInner (0x01 :: rest) =
      if (0x01 :: rest).length < dataHdrLen then .error .truncated
      else if (0x01 :: rest).getD 8 0 = 0 ∨ (0x01 :: rest).getD 8 0 ≤ (0x01 :: rest).getD 7 0 then
        .error .badFragment
      else .ok (.data
        (UInt32.ofNat (BigEndian.decode (slice (0x01 :: rest) 1 5)))
        (UInt16.ofNat (BigEndian.decode (slice (0x01 :: rest) 5 7)))
        ((0x01 :: rest).getD 7 0) ((0x01 :: rest).getD 8 0)
        ((0x01 :: rest).drop dataHdrLen)) :=
  rfl

theorem decodeInner_ackKind (rest : Bytes) :
    decodeInner (0x02 :: rest) =
      if (0x02 :: rest).length < ackLen then .error .truncated
      else .ok (.ack (UInt32.ofNat (BigEndian.decode (slice (0x02 :: rest) 1 5)))
        (UInt64.ofNat (BigEndian.decode (slice (0x02 :: rest) 5 13)))) :=
  rfl

theorem decodeInner_otherKind {kind : UInt8} (rest : Bytes) (notData : kind ≠ 0x01)
    (notAck : kind ≠ 0x02) : decodeInner (kind :: rest) = .error .badKind := by
  simp only [decodeInner, if_neg notData, if_neg notAck]

/-- A DATA frame with a consistent fragment header decodes to its own fields. -/
theorem decodeInner_encodeData (seq : UInt32) (fragId : UInt16) {index total : UInt8}
    (payload : Bytes) (indexBelow : index < total) :
    decodeInner (encodeData seq fragId index total payload) =
      .ok (.data seq fragId index total payload) := by
  have tail := drop_encodeData seq fragId index total payload
  have indexByte : (encodeData seq fragId index total payload).getD 7 0 = index := by
    simpa using congrArg (fun rest => rest.getD 0 0) tail
  have totalByte : (encodeData seq fragId index total payload).getD 8 0 = total := by
    simpa using congrArg (fun rest => rest.getD 1 0) tail
  have payloadBytes : (encodeData seq fragId index total payload).drop dataHdrLen = payload := by
    simpa [dataHdrLen] using congrArg (fun rest => rest.drop 2) tail
  have notTruncated : ¬(encodeData seq fragId index total payload).length < dataHdrLen := by
    rw [length_encodeData]
    omega
  have headerOk : ¬(total = 0 ∨ total ≤ index) := not_zero_or_le_iff.mpr indexBelow
  have unfolded : decodeInner (encodeData seq fragId index total payload) =
      if (encodeData seq fragId index total payload).length < dataHdrLen then .error .truncated
      else if (encodeData seq fragId index total payload).getD 8 0 = 0 ∨
          (encodeData seq fragId index total payload).getD 8 0 ≤
            (encodeData seq fragId index total payload).getD 7 0 then .error .badFragment
      else .ok (.data
        (UInt32.ofNat (BigEndian.decode (slice (encodeData seq fragId index total payload) 1 5)))
        (UInt16.ofNat (BigEndian.decode (slice (encodeData seq fragId index total payload) 5 7)))
        ((encodeData seq fragId index total payload).getD 7 0)
        ((encodeData seq fragId index total payload).getD 8 0)
        ((encodeData seq fragId index total payload).drop dataHdrLen)) :=
    decodeInner_dataKind _
  rw [unfolded, if_neg notTruncated, indexByte, totalByte, if_neg headerOk, slice_seq_encodeData,
    slice_fragId_encodeData, payloadBytes, BigEndian.ofNat_decode_encode_uint32,
    BigEndian.ofNat_decode_encode_uint16]

/-- Bytes after an ACK frame are ignored. -/
theorem decodeInner_encodeAck_append (base : UInt32) (bitmap : UInt64) (extra : Bytes) :
    decodeInner (encodeAck base bitmap ++ extra) = .ok (.ack base bitmap) := by
  have baseSlice : slice (encodeAck base bitmap ++ extra) 1 5 =
      BigEndian.encode 4 base.toNat := by
    simp only [encodeAck, List.append_assoc]
    exact slice_append_of_length (by simp) (by simp)
  have bitmapSlice : slice (encodeAck base bitmap ++ extra) 5 13 =
      BigEndian.encode 8 bitmap.toNat := by
    simp only [encodeAck]
    rw [List.append_assoc]
    exact slice_append_of_length (by simp) (by simp)
  have complete : ¬(encodeAck base bitmap ++ extra).length < ackLen := by
    simp only [List.length_append, length_encodeAck]
    omega
  have unfolded : decodeInner (encodeAck base bitmap ++ extra) =
      if (encodeAck base bitmap ++ extra).length < ackLen then .error .truncated
      else .ok (.ack
        (UInt32.ofNat (BigEndian.decode (slice (encodeAck base bitmap ++ extra) 1 5)))
        (UInt64.ofNat (BigEndian.decode (slice (encodeAck base bitmap ++ extra) 5 13)))) :=
    decodeInner_ackKind _
  rw [unfolded, if_neg complete, baseSlice, bitmapSlice,
    BigEndian.ofNat_decode_encode_uint32, BigEndian.ofNat_decode_encode_uint64]

@[simp]
theorem decodeInner_encodeAck (base : UInt32) (bitmap : UInt64) :
    decodeInner (encodeAck base bitmap) = .ok (.ack base bitmap) := by
  simpa using decodeInner_encodeAck_append base bitmap []

/-- A byte string of at least header length is the encoding of its own DATA fields. -/
theorem encodeData_fields {rest : Bytes} (complete : dataHdrLen ≤ (0x01 :: rest).length) :
    encodeData (UInt32.ofNat (BigEndian.decode (slice (0x01 :: rest) 1 5)))
      (UInt16.ofNat (BigEndian.decode (slice (0x01 :: rest) 5 7)))
      ((0x01 :: rest).getD 7 0) ((0x01 :: rest).getD 8 0) ((0x01 :: rest).drop dataHdrLen) =
        0x01 :: rest := by
  simp only [dataHdrLen] at complete ⊢
  have seqBytes : (slice (0x01 :: rest) 1 5).length = 4 := length_slice (by omega)
  have fragIdBytes : (slice (0x01 :: rest) 5 7).length = 2 := length_slice (by omega)
  have indexByte : slice (0x01 :: rest) 7 8 = [(0x01 :: rest).getD 7 0] := slice_succ (by omega)
  have totalByte : slice (0x01 :: rest) 8 9 = [(0x01 :: rest).getD 8 0] := slice_succ (by omega)
  have kindByte : ([0x01] : Bytes) = (0x01 :: rest).take 1 := rfl
  rw [encodeData, BigEndian.encode_ofNat_decode_uint32 seqBytes,
    BigEndian.encode_ofNat_decode_uint16 fragIdBytes, ← indexByte, ← totalByte, kindByte,
    take_append_slice _ (by decide), take_append_slice _ (by decide),
    take_append_slice _ (by decide), take_append_slice _ (by decide), List.take_append_drop]

theorem encodeAck_fields {rest : Bytes} (complete : ackLen ≤ (0x02 :: rest).length) :
    encodeAck (UInt32.ofNat (BigEndian.decode (slice (0x02 :: rest) 1 5)))
      (UInt64.ofNat (BigEndian.decode (slice (0x02 :: rest) 5 13))) =
        (0x02 :: rest).take ackLen := by
  simp only [ackLen] at complete ⊢
  have baseBytes : (slice (0x02 :: rest) 1 5).length = 4 := length_slice (by omega)
  have bitmapBytes : (slice (0x02 :: rest) 5 13).length = 8 := length_slice (by omega)
  have kindByte : ([0x02] : Bytes) = (0x02 :: rest).take 1 := rfl
  rw [encodeAck, BigEndian.encode_ofNat_decode_uint32 baseBytes,
    BigEndian.encode_ofNat_decode_uint64 bitmapBytes, kindByte,
    take_append_slice _ (by decide), take_append_slice _ (by decide)]

/-- What decoding a byte string gives: the fields it is the encoding of, or an error. -/
theorem decodeInner_cases (bytes : Bytes) :
    (∃ seq fragId index total payload, index < total ∧
      bytes = encodeData seq fragId index total payload ∧
      decodeInner bytes = .ok (.data seq fragId index total payload)) ∨
    (∃ base bitmap, bytes.take ackLen = encodeAck base bitmap ∧
      decodeInner bytes = .ok (.ack base bitmap)) ∨
    ∃ error, decodeInner bytes = .error error := by
  rcases bytes with _ | ⟨kind, rest⟩
  · exact Or.inr (Or.inr ⟨_, rfl⟩)
  by_cases isData : kind = 0x01
  · subst isData
    rw [decodeInner_dataKind]
    split_ifs with truncated inconsistent
    · exact Or.inr (Or.inr ⟨_, rfl⟩)
    · exact Or.inr (Or.inr ⟨_, rfl⟩)
    · left
      exact ⟨_, _, _, _, _, not_zero_or_le_iff.mp inconsistent,
        (encodeData_fields (Nat.le_of_not_lt truncated)).symm, rfl⟩
  by_cases isAck : kind = 0x02
  · subst isAck
    rw [decodeInner_ackKind]
    split_ifs with truncated
    · exact Or.inr (Or.inr ⟨_, rfl⟩)
    · right
      left
      exact ⟨_, _, (encodeAck_fields (Nat.le_of_not_lt truncated)).symm, rfl⟩
  · exact Or.inr (Or.inr ⟨_, decodeInner_otherKind rest isData isAck⟩)

theorem decodeInner_eq_data_iff (bytes : Bytes) (seq : UInt32) (fragId : UInt16)
    (index total : UInt8) (payload : Bytes) :
    decodeInner bytes = .ok (.data seq fragId index total payload) ↔
      index < total ∧ bytes = encodeData seq fragId index total payload := by
  constructor
  · intro decoded
    rcases decodeInner_cases bytes with
      ⟨_, _, _, _, _, indexBelow, encoded, same⟩ | ⟨_, _, _, same⟩ | ⟨_, same⟩
    · rw [decoded] at same
      cases same
      exact ⟨indexBelow, encoded⟩
    · rw [decoded] at same
      cases same
    · rw [decoded] at same
      cases same
  · rintro ⟨indexBelow, rfl⟩
    exact decodeInner_encodeData seq fragId payload indexBelow

theorem decodeInner_eq_ack_iff (bytes : Bytes) (base : UInt32) (bitmap : UInt64) :
    decodeInner bytes = .ok (.ack base bitmap) ↔ bytes.take ackLen = encodeAck base bitmap := by
  constructor
  · intro decoded
    rcases decodeInner_cases bytes with
      ⟨_, _, _, _, _, _, _, same⟩ | ⟨_, _, encoded, same⟩ | ⟨_, same⟩
    · rw [decoded] at same
      cases same
    · rw [decoded] at same
      cases same
      exact encoded
    · rw [decoded] at same
      cases same
  · intro encoded
    rw [← List.take_append_drop ackLen bytes, encoded]
    exact decodeInner_encodeAck_append base bitmap _

/-- The encoding of a frame, whatever its fields are. -/
def InnerFrame.encode : InnerFrame → Bytes
  | .data seq fragId index total payload => encodeData seq fragId index total payload
  | .ack base bitmap => encodeAck base bitmap

theorem encodeData_ne_encodeAck_append (seq : UInt32) (fragId : UInt16) (index total : UInt8)
    (payload : Bytes) (base : UInt32) (bitmap : UInt64) (extra : Bytes) :
    encodeData seq fragId index total payload ≠ encodeAck base bitmap ++ extra := by
  intro same
  cases congrArg List.head? same

/-- Frames are equal when their encodings are, whether or not they can be decoded. -/
theorem InnerFrame.encode_injective : Function.Injective InnerFrame.encode := by
  rintro (⟨seq, fragId, index, total, payload⟩ | ⟨base, bitmap⟩)
    (⟨seq', fragId', index', total', payload'⟩ | ⟨base', bitmap'⟩) same
  · simp only [encode] at same
    have seqs := congrArg (fun bytes => UInt32.ofNat (BigEndian.decode (slice bytes 1 5))) same
    have fragIds := congrArg (fun bytes => UInt16.ofNat (BigEndian.decode (slice bytes 5 7))) same
    have tails := congrArg (fun bytes => bytes.drop 7) same
    simp only [slice_seq_encodeData, slice_fragId_encodeData, drop_encodeData,
      BigEndian.ofNat_decode_encode_uint32, BigEndian.ofNat_decode_encode_uint16,
      List.cons.injEq] at seqs fragIds tails
    rcases tails with ⟨rfl, rfl, rfl⟩
    rw [seqs, fragIds]
  · exact absurd same (by simpa [encode] using
      encodeData_ne_encodeAck_append seq fragId index total payload base' bitmap' [])
  · exact absurd same.symm (by simpa [encode] using
      encodeData_ne_encodeAck_append seq' fragId' index' total' payload' base bitmap [])
  · have decoded := congrArg decodeInner same
    simp only [encode, decodeInner_encodeAck] at decoded
    cases decoded
    rfl

/--
The inner frame format: both encoders are inverted, a DATA frame is accepted only
in its own encoding and an ACK frame only behind its own encoding, everything else
is rejected, and the encodings of different frames differ.
-/
theorem decodeInner_format :
    (∀ seq fragId index total payload, index < total →
      decodeInner (encodeData seq fragId index total payload) =
        .ok (.data seq fragId index total payload)) ∧
    (∀ base bitmap, decodeInner (encodeAck base bitmap) = .ok (.ack base bitmap)) ∧
    (∀ bytes seq fragId index total payload,
      decodeInner bytes = .ok (.data seq fragId index total payload) →
        index < total ∧ bytes = encodeData seq fragId index total payload) ∧
    (∀ bytes base bitmap, decodeInner bytes = .ok (.ack base bitmap) →
      bytes.take ackLen = encodeAck base bitmap) ∧
    (∀ bytes, (∃ error, decodeInner bytes = .error error) ↔
      (¬∃ seq fragId index total payload, index < total ∧
        bytes = encodeData seq fragId index total payload) ∧
      ¬∃ base bitmap, bytes.take ackLen = encodeAck base bitmap) ∧
    (∀ bytes seq fragId index total payload base bitmap,
      ¬(decodeInner bytes = .ok (.data seq fragId index total payload) ∧
        decodeInner bytes = .ok (.ack base bitmap)) ∧
      ¬(bytes = encodeData seq fragId index total payload ∧
        bytes.take ackLen = encodeAck base bitmap)) ∧
    Function.Injective InnerFrame.encode := by
  refine ⟨?_, decodeInner_encodeAck, ?_, ?_, ?_, ?_, InnerFrame.encode_injective⟩
  · intro seq fragId index total payload indexBelow
    exact decodeInner_encodeData seq fragId payload indexBelow
  · intro bytes seq fragId index total payload decoded
    exact (decodeInner_eq_data_iff bytes seq fragId index total payload).mp decoded
  · intro bytes base bitmap decoded
    exact (decodeInner_eq_ack_iff bytes base bitmap).mp decoded
  · intro bytes
    simp only [← decodeInner_eq_data_iff, ← decodeInner_eq_ack_iff]
    rcases decodeInner_cases bytes with
      ⟨_, _, _, _, _, _, _, decoded⟩ | ⟨_, _, _, decoded⟩ | ⟨_, decoded⟩
    · simp [decoded]
    · simp [decoded]
    · simp [decoded]
  · intro bytes seq fragId index total payload base bitmap
    constructor
    · rintro ⟨asData, asAck⟩
      cases asData.symm.trans asAck
    · rintro ⟨rfl, asAck⟩
      apply encodeData_ne_encodeAck_append seq fragId index total payload base bitmap
        ((encodeData seq fragId index total payload).drop ackLen)
      rw [← asAck, List.take_append_drop]

theorem decodeInner_format_fragment :
    decodeInner (encodeData 7 3 0 2 [0x61, 0x62]) = .ok (.data 7 3 0 2 [0x61, 0x62]) :=
  decodeInner_format.1 7 3 0 2 [0x61, 0x62] (by decide)

end Ppose
