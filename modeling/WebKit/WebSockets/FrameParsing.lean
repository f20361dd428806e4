import WebKit.WebSockets.WebSocketChannel

/-!
# Frames in a buffer

What follows a complete frame does not change how it is read (`parseFrame_append`), and the bytes
that are sent for a frame are read as that frame (`parseFrame_frameBytes`).
-/

namespace WebKit
namespace WebSockets

/-! ## Bytes after a frame -/

variable {payloadLength : ℕ} {buffer : Bytes} {frame : FrameData} {opCode : OpCode}

theorem readPayloadLength_append
    (h : readPayloadLength n bytes = some (payloadLength, p)) (more : Bytes) :
    readPayloadLength n (bytes ++ more) = some (payloadLength, p ++ more) ∧
      p.length ≤ bytes.length := by
  unfold readPayloadLength at h ⊢
  by_cases hext : maxPayloadLengthWithoutExtendedLengthField < n
  · rw [if_pos hext] at h ⊢
    by_cases hlength : bytes.length < extendedPayloadLengthSize n
    · rw [if_pos hlength] at h
      cases h
    · rw [if_neg hlength] at h
      obtain ⟨rfl, rfl⟩ := h
      rw [if_neg (by rw [List.length_append]; omega),
        List.take_append_of_le_length (by omega), List.drop_append_of_le_length (by omega),
        List.length_drop]
      exact ⟨rfl, Nat.sub_le _ _⟩
  · rw [if_neg hext] at h
    obtain ⟨rfl, rfl⟩ := h
    rw [if_neg hext]
    exact ⟨rfl, le_rfl⟩

theorem readFrame_append
    (h : readFrame firstByte masked headerLength payloadLength p ≠ .frameIncomplete)
    (more : Bytes) :
    readFrame firstByte masked headerLength payloadLength (p ++ more) =
      readFrame firstByte masked headerLength payloadLength p := by
  unfold readFrame at h ⊢
  by_cases hmax : maxPayloadLength < payloadLength
  · rw [if_pos hmax, if_pos hmax]
  · rw [if_neg hmax] at h
    by_cases hlength : p.length < maskingKeyLength masked + payloadLength
    · rw [if_pos hlength] at h
      exact absurd rfl h
    · have hpayload : ((p ++ more).drop (maskingKeyLength masked)).take payloadLength =
          (p.drop (maskingKeyLength masked)).take payloadLength := by
        rw [List.drop_append_of_le_length (by omega),
          List.take_append_of_le_length (by rw [List.length_drop]; omega)]
      rw [if_neg hmax, if_neg hmax, if_neg hlength, if_neg (by rw [List.length_append]; omega),
        hpayload]
      cases masked with
      | false => rfl
      | true =>
        rw [maskingKeyLength, if_pos rfl] at hlength
        rw [List.take_append_of_le_length (by omega)]

/-- A complete frame, or an impossible length, is read before what follows it. -/
theorem parseFrame_append (h : parseFrame buffer ≠ .frameIncomplete)
    (more : Bytes) : parseFrame (buffer ++ more) = parseFrame buffer := by
  match buffer with
  | [] => exact absurd rfl h
  | [_] => exact absurd rfl h
  | firstByte :: secondByte :: extended =>
    rw [List.cons_append, List.cons_append]
    rw [parseFrame] at h ⊢
    cases hread : readPayloadLength (secondByte &&& payloadLengthMask).toNat extended with
    | none =>
      rw [hread] at h
      exact absurd rfl h
    | some r =>
      obtain ⟨payloadLength, p⟩ := r
      rw [hread] at h
      obtain ⟨hread', hle⟩ := readPayloadLength_append hread more
      have hheader : (extended ++ more).length - (p ++ more).length = extended.length - p.length := by
        rw [List.length_append, List.length_append]
        omega
      rw [hread']
      dsimp only at h ⊢
      rw [hheader, readFrame_append h, parseFrame, hread]

theorem maskPayload_length (maskingKey payload : Bytes) :
    (maskPayload maskingKey payload).length = payload.length := List.length_mapIdx

/-- A frame has two bytes at least and lies in the buffer, with its payload at its end. -/
theorem parseFrame_frameEnd
    (h : parseFrame buffer = .frameOK frame) :
    2 ≤ frame.frameEnd ∧ frame.frameEnd ≤ buffer.length ∧
      frame.payload.length ≤ frame.frameEnd := by
  match buffer with
  | [] => cases h
  | [_] => cases h
  | firstByte :: secondByte :: extended =>
    rw [parseFrame] at h
    cases hread : readPayloadLength (secondByte &&& payloadLengthMask).toNat extended with
    | none =>
      rw [hread] at h
      cases h
    | some r =>
      obtain ⟨payloadLength, p⟩ := r
      have hle := (readPayloadLength_append hread []).2
      rw [hread] at h
      dsimp only at h
      generalize (secondByte &&& maskBit != 0) = masked at h
      unfold readFrame at h
      by_cases hmax : maxPayloadLength < payloadLength
      · rw [if_pos hmax] at h
        cases h
      · rw [if_neg hmax] at h
        by_cases hlength : p.length < maskingKeyLength masked + payloadLength
        · rw [if_pos hlength] at h
          cases h
        · rw [if_neg hlength, ParseFrameResult.frameOK.injEq] at h
          have hpayload : frame.payload.length ≤ payloadLength := by
            rw [← h]
            split
            · rw [maskPayload_length]
              exact List.length_take_le _ _
            · exact List.length_take_le _ _
          have hend : frame.frameEnd = 2 + (extended.length - p.length) + maskingKeyLength masked +
              payloadLength := by rw [← h]
          rw [List.length_cons, List.length_cons]
          omega

/-- Unmasking in place changes neither the length of the buffer nor what follows the frame. -/
theorem unmaskInPlace_spec
    (h : parseFrame buffer = .frameOK frame) :
    frame.frameEnd ≤ (unmaskInPlace buffer frame).length ∧
      (unmaskInPlace buffer frame).drop frame.frameEnd = buffer.drop frame.frameEnd := by
  obtain ⟨-, hle, hpayload⟩ := parseFrame_frameEnd h
  have hfront : (buffer.take (frame.frameEnd - frame.payload.length) ++ frame.payload).length =
      frame.frameEnd := by
    rw [List.length_append, List.length_take]
    omega
  rw [unmaskInPlace]
  constructor
  · rw [List.length_append]
    omega
  · rw [List.drop_append_of_le_length (by omega), List.drop_of_length_le (by omega),
      List.nil_append]

/-! ## Frames that are sent -/

theorem maskPayload_maskPayload (maskingKey payload : Bytes) :
    maskPayload maskingKey (maskPayload maskingKey payload) = payload := by
  apply List.ext_getElem
  · rw [maskPayload_length, maskPayload_length]
  · intro i h₁ h₂
    simp only [maskPayload, List.getElem_mapIdx]
    rw [UInt8.xor_assoc, UInt8.xor_self, UInt8.xor_zero]

theorem toNat_toUInt8 (n : ℕ) : n.toUInt8.toNat = n % 256 := rfl

theorem length_frameBytes (opCode : OpCode) (key : Vector UInt8 4) (data : Bytes) :
    (frameBytes opCode key data).length ≤ data.length + 14 := by
  have hwrite : (writeLength data.length).length ≤ 9 := by
    rw [writeLength]
    split_ifs <;> simp
  simp only [frameBytes, List.length_append, List.length_cons, maskPayload_length,
    Vector.length_toList]
  omega

/-- A frame whose length is an `int`, with a header of 14 bytes at most. -/
def IsShort (data : Bytes) : Prop := data.length + 14 < 2 ^ 31

theorem isShort_nil : IsShort [] := by
  rw [IsShort]
  decide

/-- A control frame is short. -/
theorem isShort_of_valid {unfinished : Bool} (h : frameFailure unfinished frame = none)
    (hcontrol : isControlOpCode frame.opCode = true) : IsShort frame.payload := by
  rw [frameFailure] at h
  iterate 3
    split at h
    · cases h
  split at h
  · cases h
  · rename_i hlong
    rw [hcontrol, Bool.true_and, decide_eq_true_eq] at hlong
    rw [IsShort]
    rw [maxPayloadLengthWithoutExtendedLengthField] at hlong
    omega

/-- The socket takes the whole of such a frame. -/
theorem WebSocketChannel.giveToSocket_taken (h : IsShort data) (s : WebSocketChannel)
    (opCode : OpCode) (key : Vector UInt8 4) :
    s.giveToSocket (frameBytes opCode key data) .taken =
      s.effect (.sent (frameBytes opCode key data)) := by
  have hlength := length_frameBytes opCode key data
  have hint : sendLength (frameBytes opCode key data) = (frameBytes opCode key data).length := by
    rw [IsShort] at h
    exact Int.bmod_eq_of_le (by omega) (by omega)
  rw [giveToSocket, hint, if_neg (Int.not_lt.mpr (Int.natCast_nonneg _)), Int.toNat_natCast,
    List.take_length]

/-- A number written in the network byte order. -/
theorem readLength_range (k : ℕ) : ∀ n : ℕ,
    readLength ((List.range k).map fun i => (n / 256 ^ (k - 1 - i)).toUInt8) = n % 256 ^ k := by
  induction k with
  | zero => exact fun n => (Nat.mod_one n).symm
  | succ k ih =>
    intro n
    -- the digits before the last one are those of `n / 256`
    have hdigits : (List.range k).map (fun i => (n / 256 ^ (k - i)).toUInt8) =
        (List.range k).map fun i => (n / 256 / 256 ^ (k - 1 - i)).toUInt8 := by
      refine List.map_congr_left fun i hi => ?_
      have hsub : k - i = (k - 1 - i) + 1 := by
        have := List.mem_range.mp hi
        omega
      rw [hsub, pow_succ', Nat.div_div_eq_div_mul]
    rw [List.range_succ, List.map_append, Nat.add_sub_cancel, hdigits]
    simp only [List.map_cons, List.map_nil, Nat.sub_self, pow_zero, Nat.div_one]
    have hread := ih (n / 256)
    rw [readLength] at hread ⊢
    rw [List.foldl_append, List.foldl_cons, List.foldl_nil, toNat_toUInt8, pow_succ', Nat.mod_mul]
    omega

/-- An extended length field of the right size is read as its number. -/
theorem readPayloadLength_extended (hk : maxPayloadLengthWithoutExtendedLengthField < k)
    (hsize : extended.length = extendedPayloadLengthSize k) (bytes : Bytes) :
    readPayloadLength k (extended ++ bytes) = some (readLength extended, bytes) := by
  rw [readPayloadLength, if_pos hk, ← hsize, if_neg (by rw [List.length_append]; omega),
    List.take_left, List.drop_left]

/-- The length field that is written is read as the length. -/
theorem readPayloadLength_writeLength (h : n < 2 ^ 64) (bytes : Bytes) :
    ∃ secondByte extended, writeLength n = secondByte :: extended ∧
      (secondByte &&& maskBit != 0) = true ∧
      readPayloadLength (secondByte &&& payloadLengthMask).toNat (extended ++ bytes) =
        some (n, bytes) := by
  by_cases hshort : n ≤ maxPayloadLengthWithoutExtendedLengthField
  · have hbyte : ∀ n ≤ 125, (maskBit ||| n.toUInt8) &&& maskBit ≠ 0 ∧
        ((maskBit ||| n.toUInt8) &&& payloadLengthMask).toNat = n := by decide
    obtain ⟨hmask, hlength⟩ := hbyte n hshort
    refine ⟨_, [], by rw [writeLength, if_pos hshort], by simpa using hmask, ?_⟩
    rw [hlength, readPayloadLength, if_neg (by omega)]
    rfl
  · by_cases htwo : n ≤ 0xFFFF
    · have hread : readLength [(n / 256).toUInt8, n.toUInt8] = n := by
        change (0 * 256 + (n / 256).toUInt8.toNat) * 256 + n.toUInt8.toNat = n
        rw [toNat_toUInt8, toNat_toUInt8]
        omega
      refine ⟨0xFE, _, by rw [writeLength, if_neg hshort, if_pos htwo]; rfl, rfl, ?_⟩
      rw [readPayloadLength_extended (by decide) rfl, hread]
    · refine ⟨0xFF, _, by rw [writeLength, if_neg hshort, if_neg htwo]; rfl, rfl, ?_⟩
      rw [readPayloadLength_extended (by decide) rfl, readLength_range 8 n,
        Nat.mod_eq_of_lt (show n < 256 ^ 8 from h)]

/-- The bits of the first byte of a frame that is sent. -/
theorem firstByte_spec : ∀ opCode < 16,
    ((finalBit ||| opCode.toUInt8) &&& opCodeMask).toNat = opCode ∧
      ((finalBit ||| opCode.toUInt8) &&& finalBit != 0) = true ∧
      ((finalBit ||| opCode.toUInt8) &&& reserved1Bit != 0) = false ∧
      ((finalBit ||| opCode.toUInt8) &&& reserved2Bit != 0) = false ∧
      ((finalBit ||| opCode.toUInt8) &&& reserved3Bit != 0) = false := by decide

section

variable (hopCode : opCode < 16) (key : Vector UInt8 4) {data : Bytes}
  (hdata : data.length ≤ maxPayloadLength)
include hdata hopCode

/-- The bytes sent for a frame are read as one final frame, with its opcode and data. -/
theorem parseFrame_frameBytes (rest : Bytes) :
    parseFrame (frameBytes opCode key data ++ rest) = .frameOK
        { opCode := opCode
          final := true
          reserved1 := false
          reserved2 := false
          reserved3 := false
          masked := true
          payload := data
          frameEnd := (frameBytes opCode key data).length } := by
  obtain ⟨hop, hfinal, h1, h2, h3⟩ := firstByte_spec opCode hopCode
  have hlt : data.length < 2 ^ 64 := by
    have hmax : maxPayloadLength < 2 ^ 64 := by decide
    omega
  obtain ⟨secondByte, extended, hwrite, hmask, hread⟩ :=
    readPayloadLength_writeLength hlt (key.toList ++ maskPayload key.toList data ++ rest)
  have hkey : key.toList.length = 4 := by simp
  have hbytes : frameBytes opCode key data ++ rest = (finalBit ||| opCode.toUInt8) :: secondByte ::
      (extended ++ (key.toList ++ maskPayload key.toList data ++ rest)) := by
    rw [frameBytes, hwrite]
    simp
  have hlength : (frameBytes opCode key data).length = 2 + extended.length + 4 + data.length := by
    rw [frameBytes, hwrite]
    simp only [List.length_append, List.length_cons, hkey, maskPayload_length]
    omega
  rw [hbytes, parseFrame, hread]
  dsimp only
  rw [hmask, readFrame, if_neg (by omega), if_neg (by
    simp only [List.length_append, maskPayload_length, maskingKeyLength,
      maskingKeyWidthInBytes, if_true]
    omega)]
  have hdrop : (key.toList ++ maskPayload key.toList data ++ rest).drop 4 =
      maskPayload key.toList data ++ rest := by
    rw [List.append_assoc, List.drop_append_of_le_length (by omega),
      List.drop_of_length_le (by omega), List.nil_append]
  have htake : (key.toList ++ maskPayload key.toList data ++ rest).take 4 = key.toList := by
    rw [List.append_assoc, List.take_append_of_le_length (by omega),
      List.take_of_length_le (by omega)]
  have hpayload : (maskPayload key.toList data ++ rest).take data.length =
      maskPayload key.toList data := by
    rw [List.take_append_of_le_length (by rw [maskPayload_length]),
      List.take_of_length_le (by rw [maskPayload_length])]
  rw [maskingKeyLength, if_pos rfl, maskingKeyWidthInBytes, hdrop, htake, hpayload]
  dsimp only
  rw [maskPayload_maskPayload]
  congr 2
  simp only [List.length_append]
  omega

/-- The bytes of a frame that is sent, cut short, are no frame yet. -/
theorem parseFrame_of_isPrefix
    (hmore : more ≠ []) (hbuffer : buffer ++ more = frameBytes opCode key data) :
    parseFrame buffer = .frameIncomplete := by
  by_contra hparse
  have hframe := parseFrame_frameBytes hopCode key hdata []
  rw [List.append_nil, ← hbuffer, parseFrame_append hparse] at hframe
  have hend := (parseFrame_frameEnd hframe).2.1
  have hpos := List.length_pos_iff.mpr hmore
  simp only [List.length_append] at hend
  omega

end

/-- What `parseFrame` leaves in the buffer: a frame is unmasked there. -/
def bufferAfterParseFrame (buffer : Bytes) : Bytes :=
  match parseFrame buffer with
  | .frameOK frame => unmaskInPlace buffer frame
  | _ => buffer

/-- The bytes sent for a frame, followed by any others, are read as this one frame and unmasked; any
bytes that they begin with are no frame yet and are left as they are. -/
theorem parseFrame_sendFrame (opCode : OpCode) (hopCode : opCode < 16) (key : Vector UInt8 4)
    (data : Bytes) (hdata : data.length < 2 ^ 63) (rest : Bytes) :
    (∃ frame, parseFrame (frameBytes opCode key data ++ rest) = .frameOK frame ∧
      frame.opCode = opCode ∧ frame.final = true ∧ frame.masked = true ∧
      frame.reserved1 = false ∧ frame.reserved2 = false ∧ frame.reserved3 = false ∧
      frame.payload = data ∧ frame.frameEnd = (frameBytes opCode key data).length ∧
      (frameBytes opCode key data ++ rest).drop frame.frameEnd = rest ∧
      (bufferAfterParseFrame (frameBytes opCode key data ++ rest)).drop frame.frameEnd = rest) ∧
    ∀ buffer, buffer <+: frameBytes opCode key data → buffer ≠ frameBytes opCode key data →
      parseFrame buffer = .frameIncomplete ∧ bufferAfterParseFrame buffer = buffer := by
  have hmax : data.length ≤ maxPayloadLength := Nat.le_of_lt_succ hdata
  constructor
  · have hparse := parseFrame_frameBytes hopCode key hmax rest
    refine ⟨_, hparse, rfl, rfl, rfl, rfl, rfl, rfl, rfl, rfl, List.drop_left, ?_⟩
    rw [bufferAfterParseFrame, hparse]
    exact (unmaskInPlace_spec hparse).2.trans List.drop_left
  · rintro buffer ⟨more, hbuffer⟩ hne
    have hmore : more ≠ [] := fun hnil => hne (by rw [← hbuffer, hnil, List.append_nil])
    have hparse := parseFrame_of_isPrefix hopCode key hmax hmore hbuffer
    rw [bufferAfterParseFrame, hparse]
    exact ⟨rfl, rfl⟩

/-- A text frame of one byte, with a byte behind it. -/
theorem parseFrame_sendFrame_text : ∃ frame,
    parseFrame (frameBytes opCodeText (Vector.replicate 4 7) [65] ++ [66]) = .frameOK frame ∧
      frame.payload = [65] := by
  obtain ⟨frame, hparse, -, -, -, -, -, -, hpayload, -⟩ :=
    (parseFrame_sendFrame opCodeText (by decide) (Vector.replicate 4 7) [65] (by decide) [66]).1
  exact ⟨frame, hparse, hpayload⟩

end WebSockets
end WebKit
