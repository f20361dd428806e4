import Mathlib.Data.UInt
import WebKit.Library.DoWhile

/-!
# The UTF-8 decoder

`TextCodecUTF8::decode` takes the bytes of a document chunk by chunk.  What is left of a chunk, the
beginning of a sequence, is kept in a buffer, and another loop reads from the buffer when the next
chunk comes.

Only the first `m_partialSequenceSize` bytes of the buffer are in the model.  A successful decode
shortens the buffer without moving its bytes, so that its first bytes are what is left of it.

* `handleStep`, `handlePartialSequence`: the loop that reads from the buffer.
* `decodeSource`: the loop that reads from the chunk.
* `decode`, `decodeAll`: a call, and the calls for the chunks of a document.
-/

namespace WebKit.Text.TextCodecUTF8

open List

/-! ## Sequences -/

def isASCII (b : UInt8) : Bool := b < 0x80

/-- The table, by its ranges. -/
def nonASCIISequenceLength (firstByte : UInt8) : ℕ :=
  if firstByte < 0x80 then 0
  else if firstByte < 0xE0 then 2
  else if firstByte < 0xF0 then 3
  else if firstByte < 0xF5 then 4
  else 0

/-- A byte from `low` to `high`. -/
def inRange (low high b : UInt8) : Bool := !(b < low || b > high)

/-- The switches on the first byte, for the second byte. -/
def isSecondByte (first second : UInt8) : Bool :=
  if first = 0xE0 then inRange 0xA0 0xBF second
  else if first = 0xED then inRange 0x80 0x9F second
  else if first = 0xF0 then inRange 0x90 0xBF second
  else if first = 0xF4 then inRange 0x80 0x8F second
  else inRange 0x80 0xBF second

/-- The character of a sequence; `none` is `nonCharacter`. -/
def decodeNonASCIISequence : List UInt8 → Option ℕ
  | [b0, b1] =>
    if b0 < 0xC2 then none
    else if !inRange 0x80 0xBF b1 then none
    else some (b0.toNat * 2 ^ 6 + b1.toNat - 0x3080)
  | [b0, b1, b2] =>
    if !isSecondByte b0 b1 then none
    else if !inRange 0x80 0xBF b2 then none
    else some (b0.toNat * 2 ^ 12 + b1.toNat * 2 ^ 6 + b2.toNat - 0xE2080)
  | [b0, b1, b2, b3] =>
    if !isSecondByte b0 b1 then none
    else if !inRange 0x80 0xBF b2 then none
    else if !inRange 0x80 0xBF b3 then none
    else some (b0.toNat * 2 ^ 18 + b1.toNat * 2 ^ 12 + b2.toNat * 2 ^ 6 + b3.toNat - 0x3C82080)
  | _ => none

def replacementCharacter : UInt16 := 0xFFFD

/-- With `U16_LEAD` and `U16_TRAIL`. -/
def appendCharacter (destination : List UInt16) (character : ℕ) : List UInt16 :=
  if character ≤ 0xFFFF then destination ++ [.ofNat character]
  else destination ++ [.ofNat (character / 2 ^ 10 + 0xD7C0), .ofNat (character % 2 ^ 10 + 0xDC00)]

/-! ## The buffer -/

/-- The variables of a call. -/
structure State where
  destination : List UInt16
  m_partialSequence : List UInt8
  source : List UInt8
  sawError : Bool
  deriving DecidableEq

variable (state : State)

def State.consumePartialSequenceByte : State :=
  { state with m_partialSequence := state.m_partialSequence.tail }

def State.handleError (stopOnError : Bool) : State :=
  if stopOnError then { state with sawError := true }
  else { state with
    destination := state.destination ++ [replacementCharacter]
    m_partialSequence := state.m_partialSequence.tail
    sawError := true }

/-- The bytes of the source that a sequence needs are copied into the buffer. -/
def State.fill (count : ℕ) : State :=
  let missing := count - state.m_partialSequence.length
  { state with
    m_partialSequence := state.m_partialSequence ++ state.source.take missing
    source := state.source.drop missing }

/-- The decoding at the end of an iteration, with enough bytes in the buffer. -/
def State.decodePartial (count : ℕ) (stopOnError : Bool) : State × Bool :=
  match decodeNonASCIISequence (state.m_partialSequence.take count) with
  | none => (state.handleError stopOnError, !stopOnError)
  | some character =>
    ({ state with
      destination := appendCharacter state.destination character
      m_partialSequence :=
        state.m_partialSequence.take (state.m_partialSequence.length - count) }, true)

/-- An iteration.  The loop is left where the second part is false. -/
def handleStep (flush stopOnError : Bool) (state : State) : State × Bool :=
  match state.m_partialSequence with
  | [] => (state, false)
  | b :: _ =>
    if isASCII b then
      ({ state.consumePartialSequenceByte with
        destination := state.destination ++ [b.toUInt16] }, true)
    else
      let count := nonASCIISequenceLength b
      if count = 0 then (state.handleError stopOnError, !stopOnError)
      else if count > state.m_partialSequence.length then
        if count - state.m_partialSequence.length > state.source.length then
          if !flush then
            ({ state with
              m_partialSequence := state.m_partialSequence ++ state.source
              source := [] }, false)
          else (state.handleError stopOnError, !stopOnError)
        else (state.fill count).decodePartial count stopOnError
      else state.decodePartial count stopOnError

/-! ## The loop over the buffer -/

/-- The bytes that were not read. -/
def State.size : ℕ := state.m_partialSequence.length + state.source.length

section Account

variable {state : State} {stopOnError : Bool} {count : ℕ}

theorem length_appendCharacter_le (destination : List UInt16) (character : ℕ) :
    (appendCharacter destination character).length ≤ destination.length + 2 := by
  rw [appendCharacter]
  split_ifs <;> simp

theorem two_le_nonASCIISequenceLength (h : nonASCIISequenceLength b ≠ 0) :
    2 ≤ nonASCIISequenceLength b := by
  rw [nonASCIISequenceLength] at h ⊢
  split_ifs at h ⊢ <;> first | exact absurd rfl h | decide

/-- What a step does with the number of bytes: each character that is written has a byte. -/
structure Account (state : State) (next : State × Bool) : Prop where
  total : next.1.size + next.1.destination.length ≤ state.size + state.destination.length
  less : next.2 = true → next.1.size < state.size
  source : next.1.source.length ≤ state.source.length

theorem account_handleError (h : state.m_partialSequence ≠ []) :
    Account state (state.handleError stopOnError, !stopOnError) := by
  obtain ⟨b, rest, hrest⟩ := exists_cons_of_ne_nil h
  rw [State.handleError]
  cases stopOnError with
  | true => exact ⟨le_rfl, nofun, le_rfl⟩
  | false =>
    constructor <;> simp [State.size, hrest] <;> omega

theorem fill_size (h : count - state.m_partialSequence.length ≤ state.source.length) :
    (state.fill count).size = state.size := by
  simp only [State.fill, State.size, length_append, length_take, length_drop]
  omega

theorem account_decodePartial (hcount : 2 ≤ count) (h : count ≤ state.m_partialSequence.length) :
    Account state (state.decodePartial count stopOnError) := by
  have hne : state.m_partialSequence ≠ [] := by
    rintro heq
    rw [heq, length_nil] at h
    omega
  rw [State.decodePartial]
  split
  · exact account_handleError hne
  · next character _ =>
    have hwritten := length_appendCharacter_le state.destination character
    constructor <;> simp [State.size] <;> omega

theorem account_handleStep (flush stopOnError : Bool) (state : State) :
    Account state (handleStep flush stopOnError state) := by
  rw [handleStep]
  split
  · exact ⟨le_rfl, nofun, le_rfl⟩
  · next b rest hheld =>
    have hne : state.m_partialSequence ≠ [] := by rw [hheld]; exact cons_ne_nil _ _
    split
    · constructor <;> simp [State.size, State.consumePartialSequenceByte, hheld] <;> omega
    · dsimp only
      split
      · exact account_handleError hne
      · next hcount =>
        have htwo := two_le_nonASCIISequenceLength hcount
        split
        · split
          · split
            · constructor <;> simp [State.size]
            · exact account_handleError hne
          · next hshort henough =>
            have hfill := fill_size (not_lt.mp henough)
            have hfilled : nonASCIISequenceLength b ≤
                (state.fill (nonASCIISequenceLength b)).m_partialSequence.length := by
              simp only [State.fill, length_append, length_take]
              omega
            obtain ⟨htotal, hless, hsource⟩ : Account _
                ((state.fill (nonASCIISequenceLength b)).decodePartial
                  (nonASCIISequenceLength b) stopOnError) := account_decodePartial htwo hfilled
            rw [hfill] at htotal hless
            refine ⟨htotal, hless, hsource.trans ?_⟩
            simp [State.fill]
        · next henough => exact account_decodePartial htwo (not_lt.mp henough)

end Account

/-- The loop: it goes on while there are bytes in the buffer. -/
def handleLoop (flush stopOnError : Bool) : DoWhile State where
  step state :=
    let next := handleStep flush stopOnError state
    (next.1, next.2 && !next.1.m_partialSequence.isEmpty)
  measure := State.size
  measure_lt state h := (account_handleStep flush stopOnError state).less (Bool.and_eq_true_iff.mp h).1

def handlePartialSequence (flush stopOnError : Bool) (state : State) : State :=
  (handleLoop flush stopOnError).run state

/-! ## The loop over the source -/

/-- `sizeof(MachineWord)` of a platform with words of 64 bits. -/
def machineWordSize : ℕ := 8

/-- The number of bytes that the loop over words copies from an aligned address: it ends before a
word that is not all ASCII or that is not there as a whole. -/
def asciiWordBytes (source : List UInt8) : ℕ :=
  if machineWordSize ≤ source.length ∧ (source.take machineWordSize).all isASCII then
    machineWordSize + asciiWordBytes (source.drop machineWordSize)
  else 0
termination_by source.length
decreasing_by
  rw [length_drop]
  have : 0 < machineWordSize := by decide
  omega

/-- The bytes are copied, each into a character. -/
def State.copyASCII (state : State) (count : ℕ) : State :=
  { state with
    destination := state.destination ++ (state.source.take count).map UInt8.toUInt16
    source := state.source.drop count }

/-- An iteration, with the address behind the source. -/
def decodeStep (stopOnError : Bool) (endAddress : ℕ) (state : State) : State × Bool :=
  match state.source with
  | [] => (state, false)
  | b :: rest =>
    if isASCII b then
      let aligned := (endAddress - state.source.length) % machineWordSize = 0
      let state := if aligned then state.copyASCII (asciiWordBytes state.source) else state
      match state.source with
      | [] => (state, false)
      | c :: _ => if !isASCII c then (state, true) else (state.copyASCII 1, true)
    else
      let count := nonASCIISequenceLength b
      if count > state.source.length then
        ({ state with m_partialSequence := state.source, source := [] }, false)
      else
        let character := if count = 0 then none else decodeNonASCIISequence (state.source.take count)
        match character with
        | none =>
          if stopOnError then ({ state with sawError := true }, false)
          else ({ state with
            destination := state.destination ++ [replacementCharacter]
            source := rest
            sawError := true }, true)
        | some character =>
          ({ state with
            destination := appendCharacter state.destination character
            source := state.source.drop count }, true)

section Account

variable {state : State} {stopOnError : Bool}

theorem size_copyASCII (state : State) (count : ℕ) :
    (state.copyASCII count).size + (state.copyASCII count).destination.length =
      state.size + state.destination.length := by
  simp only [State.copyASCII, State.size, length_append, length_map, length_take, length_drop]
  omega

theorem length_source_copyASCII (state : State) (count : ℕ) :
    (state.copyASCII count).source.length = state.source.length - count :=
  length_drop

/-- A step over the source: the measure is the length of the source, and the buffer is filled only
with what is left of it. -/
structure SourceAccount (state : State) (next : State × Bool) : Prop where
  total : next.1.size + next.1.destination.length ≤ state.size + state.destination.length
  less : next.2 = true → next.1.source.length < state.source.length
  source : next.1.source.length ≤ state.source.length
  partialSequence : next.1.m_partialSequence = state.m_partialSequence ∨
    next.1.source = [] ∧ next.1.m_partialSequence = state.source ∧ state.source ≠ [] ∧
      next.2 = false

theorem copyASCII_zero (state : State) : state.copyASCII 0 = state := by
  simp [State.copyASCII]

theorem sourceAccount_decodeStep (stopOnError : Bool) (endAddress : ℕ) (state : State) :
    SourceAccount state (decodeStep stopOnError endAddress state) := by
  rw [decodeStep]
  split
  · exact ⟨le_rfl, nofun, le_rfl, .inl rfl⟩
  · next b rest hsource =>
    have hlength : state.source.length = rest.length + 1 := by rw [hsource, length_cons]
    split
    · next hascii =>
      obtain ⟨count, hcount⟩ : ∃ count,
          (if (endAddress - state.source.length) % machineWordSize = 0 then
            state.copyASCII (asciiWordBytes state.source) else state) = state.copyASCII count := by
        split
        · exact ⟨_, rfl⟩
        · exact ⟨0, (copyASCII_zero state).symm⟩
      dsimp only
      rw [hcount]
      have hsize := size_copyASCII state count
      have hleft := length_source_copyASCII state count
      split
      · exact ⟨hsize.le, nofun, by dsimp only; omega, .inl rfl⟩
      · next c rest' hc =>
        rw [hc, length_cons] at hleft
        split
        · next hnot =>
          refine ⟨hsize.le, fun _ => ?_, (by rw [hc, length_cons]; omega), .inl rfl⟩
          have hpos : count ≠ 0 := by
            rintro rfl
            rw [copyASCII_zero, hsource] at hc
            cases hc
            rw [hascii] at hnot
            cases hnot
          rw [hc, length_cons]
          omega
        · have hsize' := size_copyASCII (state.copyASCII count) 1
          have hleft' := length_source_copyASCII (state.copyASCII count) 1
          rw [hc, length_cons] at hleft'
          exact ⟨by dsimp only; omega, fun _ => by dsimp only; omega, by dsimp only; omega, .inl rfl⟩
    · dsimp only
      split
      · refine ⟨?_, nofun, Nat.zero_le _, .inr ⟨rfl, rfl, ?_, rfl⟩⟩
        · simp only [State.size, length_nil]
          omega
        · rw [hsource]
          exact cons_ne_nil _ _
      · next hshort =>
        split
        · split
          · exact ⟨le_rfl, nofun, le_rfl, .inl rfl⟩
          · exact ⟨by simp [State.size]; omega, fun _ => by simp [hlength],
              by simp [hlength], .inl rfl⟩
        · next character hcharacter =>
          have hwritten := length_appendCharacter_le state.destination character
          have hcount : nonASCIISequenceLength b ≠ 0 := by
            rintro hzero
            rw [if_pos hzero] at hcharacter
            cases hcharacter
          have htwo := two_le_nonASCIISequenceLength hcount
          exact ⟨by simp [State.size]; omega, fun _ => by simp; omega, by simp, .inl rfl⟩

end Account

/-- The loop over the source. -/
def sourceLoop (stopOnError : Bool) (endAddress : ℕ) : DoWhile State where
  step := decodeStep stopOnError endAddress
  measure state := state.source.length
  measure_lt state := (sourceAccount_decodeStep stopOnError endAddress state).less

def decodeSource (stopOnError : Bool) (endAddress : ℕ) (state : State) : State :=
  (sourceLoop stopOnError endAddress).run state

/-! ## A call -/

variable (flush stopOnError : Bool)

theorem source_handlePartialSequence (state : State) :
    (handlePartialSequence flush stopOnError state).source.length ≤ state.source.length :=
  DoWhile.run_induction (P := fun next => next.source.length ≤ state.source.length) le_rfl
    fun next _ h => (account_handleStep flush stopOnError next).source.trans h

/-- The buffer that the loop over the source leaves is what is left of the source. -/
theorem partialSequence_decodeSource {stopOnError : Bool} {endAddress : ℕ} {state : State}
    (hempty : state.m_partialSequence = [])
    (hleft : (decodeSource stopOnError endAddress state).m_partialSequence ≠ []) :
    (decodeSource stopOnError endAddress state).source = [] ∧ state.source ≠ [] := by
  obtain ⟨last, hreach, hend⟩ := (sourceLoop stopOnError endAddress).run_spec state
  have hlast : last.m_partialSequence = [] ∧ last.source.length ≤ state.source.length := by
    clear hend
    induction hreach with
    | refl => exact ⟨hempty, le_rfl⟩
    | @tail x y _ hnext ih =>
      have haccount := sourceAccount_decodeStep stopOnError endAddress x
      have hstep : decodeStep stopOnError endAddress x = (y, true) := hnext
      rw [hstep] at haccount
      refine ⟨?_, haccount.source.trans ih.2⟩
      rcases haccount.partialSequence with heq | ⟨-, -, -, hfalse⟩
      · exact heq.trans ih.1
      · cases hfalse
  have haccount := sourceAccount_decodeStep stopOnError endAddress last
  have hstep : decodeStep stopOnError endAddress last =
      (decodeSource stopOnError endAddress state, false) := hend
  rw [hstep] at haccount
  rcases haccount.partialSequence with heq | ⟨hsource, -, hne, -⟩
  · exact absurd (heq.trans hlast.1) hleft
  · refine ⟨hsource, fun hnil => hne ?_⟩
    rw [hnil] at hlast
    exact eq_nil_of_length_eq_zero (Nat.le_zero.mp hlast.2)

/-- The first part of a pass. -/
def handleBuffer (state : State) : State :=
  if state.m_partialSequence = [] then state
  else handlePartialSequence flush stopOnError state

theorem source_handleBuffer (state : State) :
    (handleBuffer flush stopOnError state).source.length ≤ state.source.length := by
  rw [handleBuffer]
  split
  · exact le_rfl
  · exact source_handlePartialSequence flush stopOnError state

/-- The buffer first, then the source. -/
def decodePass (endAddress : ℕ) (state : State) : State × Bool :=
  let handled := handleBuffer flush stopOnError state
  if handled.m_partialSequence ≠ [] then (handled, false)
  else
    let decoded := decodeSource stopOnError endAddress handled
    (decoded, flush && !decoded.m_partialSequence.isEmpty)

/-- The passes: with `flush` what is left of the source is read from the buffer. -/
def passLoop (endAddress : ℕ) : DoWhile State where
  step := decodePass flush stopOnError endAddress
  measure state := state.source.length
  measure_lt state h := by
    have hle := source_handleBuffer flush stopOnError state
    rw [decodePass] at h ⊢
    generalize handleBuffer flush stopOnError state = handled at h hle ⊢
    by_cases hempty : handled.m_partialSequence = []
    · rw [if_neg (not_not.mpr hempty)] at h ⊢
      have hleft : (decodeSource stopOnError endAddress handled).m_partialSequence ≠ [] := by
        intro hnil
        simp [hnil] at h
      obtain ⟨hsource, hne⟩ := partialSequence_decodeSource hempty hleft
      dsimp only
      rw [hsource]
      exact Nat.lt_of_lt_of_le (length_pos_of_ne_nil hne) hle
    · rw [if_pos hempty] at h
      cases h

/-- `StringBuffer<UChar> buffer(length)` takes the length as an `unsigned`, and ends in `CRASH()` where
the size in bytes would not be one. -/
def stringBufferLength (length : ℕ) : Option ℕ :=
  let m_length := length % 2 ^ 32
  if m_length > (2 ^ 32 - 1) / 2 then none else some m_length

/-- The string of a call is the destination of the state.  The buffer it is written to is
`Call.bufferLength`. -/
def decode (m_partialSequence bytes : List UInt8) (endAddress : ℕ)
    (flush stopOnError sawError : Bool) : State :=
  (passLoop flush stopOnError endAddress).run ⟨[], m_partialSequence, bytes, sawError⟩

/-! ## A document -/

structure Chunk where
  bytes : List UInt8
  endAddress : ℕ

/-- A call for a chunk, with what the calls before it left. -/
structure Call where
  m_partialSequence : List UInt8
  sawError : Bool
  chunk : Chunk
  flush : Bool

namespace Call

variable (call : Call)

def start : State := ⟨[], call.m_partialSequence, call.chunk.bytes, call.sawError⟩

/-- The length of `buffer`. -/
def bufferLength : Option ℕ :=
  stringBufferLength (call.m_partialSequence.length + call.chunk.bytes.length)

def result : State :=
  decode call.m_partialSequence call.chunk.bytes call.chunk.endAddress call.flush false call.sawError

end Call

/-- The calls for the chunks of a document. -/
def calls (m_partialSequence : List UInt8) (sawError : Bool) : List Chunk → List Call
  | [] => []
  | [chunk] => [⟨m_partialSequence, sawError, chunk, true⟩]
  | chunk :: chunks =>
    let call : Call := ⟨m_partialSequence, sawError, chunk, false⟩
    call :: calls call.result.m_partialSequence call.result.sawError chunks

/-- The strings of the calls, one after the other. -/
def decodedText (chunks : List Chunk) : List UInt16 :=
  (calls [] false chunks).flatMap fun call => call.result.destination

/-- `sawError` after the last call. -/
def decodedError (chunks : List Chunk) : Bool :=
  (calls [] false chunks).getLast?.any fun call => call.result.sawError

end WebKit.Text.TextCodecUTF8
