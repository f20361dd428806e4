import WebKit.Library.UTF8Reading
import WebKit.Text.TextCodecUTF8

/-!
# What the UTF-8 decoder reads

Cut into chunks in any way, the bytes of a document are read as they would be in one piece, unless a
decoded sequence leaves bytes behind it in the buffer.  The first bytes of the buffer are then read
in place of these.
-/

namespace WebKit.Text.TextCodecUTF8

open List State DoWhile

/-! ## Sequences of bytes -/

variable {b b0 b1 : UInt8} {c : ℕ} {rest m_partialSequence : List UInt8} {call : Call}

theorem isASCII_iff : isASCII b = true ↔ b.toNat < 0x80 := by
  rw [isASCII, decide_eq_true_iff]
  rfl

theorem inRange_iff :
    inRange low high b = true ↔ low.toNat ≤ b.toNat ∧ b.toNat ≤ high.toNat := by
  simp [inRange, UInt8.lt_iff_toNat_lt]

theorem isSecondByte_iff : isSecondByte first second = true ↔
      (if first.toNat = 0xE0 then 0xA0 else if first.toNat = 0xF0 then 0x90 else 0x80) ≤
          second.toNat ∧
        second.toNat ≤
          (if first.toNat = 0xED then 0x9F else if first.toNat = 0xF4 then 0x8F else 0xBF) := by
  simp only [isSecondByte, ← UInt8.toNat_inj]
  split_ifs <;> rw [inRange_iff] <;> simp_all

theorem nonASCIISequenceLength_eq (b : UInt8) : nonASCIISequenceLength b =
      if b.toNat < 0x80 then 0 else if b.toNat < 0xE0 then 2 else if b.toNat < 0xF0 then 3
      else if b.toNat < 0xF5 then 4 else 0 := by
  rfl

theorem isScalarValue_of_ascii (h : isASCII b = true) : IsScalarValue b.toNat :=
  .inl (Nat.lt_trans (isASCII_iff.mp h) (by decide))

theorem utf8Encoding_ascii (h : isASCII b = true) : utf8Encoding b.toNat = [b] := by
  rw [utf8Encoding, if_pos (isASCII_iff.mp h), UInt8.ofNat_toNat]

theorem utf16Encoding_ascii (h : isASCII b = true) : utf16Encoding b.toNat = [b.toUInt16] := by
  have := isASCII_iff.mp h
  rw [utf16Encoding, if_pos (by omega), ← UInt8.toNat_toUInt16, UInt16.ofNat_toNat]

theorem appendCharacter_eq (destination : List UInt16) (c : ℕ) :
    appendCharacter destination c = destination ++ utf16Encoding c := by
  rw [appendCharacter, utf16Encoding]
  by_cases hplane : c < 0x10000
  · rw [if_pos (Nat.le_of_lt_succ hplane), if_pos hplane]
  · have hlead : c / 2 ^ 10 + 0xD7C0 = 0xD800 + (c - 0x10000) / 0x400 := by omega
    have htrail : c % 2 ^ 10 + 0xDC00 = 0xDC00 + (c - 0x10000) % 0x400 := by omega
    rw [if_neg (by omega), if_neg hplane, hlead, htrail]

theorem toNat_byte (h : n < 0x100) : (UInt8.ofNat n).toNat = n :=
  UInt8.toNat_ofNat_of_lt' h

theorem ofNat_eq (h : n = b.toNat) : UInt8.ofNat n = b := by
  rw [h, UInt8.ofNat_toNat]

theorem decode_two_iff : decodeNonASCIISequence [b0, b1] = some c ↔
      0xC2 ≤ b0.toNat ∧ (0x80 ≤ b1.toNat ∧ b1.toNat ≤ 0xBF) ∧
        b0.toNat * 2 ^ 6 + b1.toNat - 0x3080 = c := by
  have hrange : inRange 0x80 0xBF b1 = true ↔ 0x80 ≤ b1.toNat ∧ b1.toNat ≤ 0xBF := inRange_iff
  rw [decodeNonASCIISequence, ← hrange, ← Nat.not_lt]
  have hlt : b0 < 0xC2 ↔ b0.toNat < 0xC2 := UInt8.lt_iff_toNat_lt
  split_ifs <;> simp_all

theorem decode_three_iff : decodeNonASCIISequence [b0, b1, b2] = some c ↔
      isSecondByte b0 b1 = true ∧ (0x80 ≤ b2.toNat ∧ b2.toNat ≤ 0xBF) ∧
        b0.toNat * 2 ^ 12 + b1.toNat * 2 ^ 6 + b2.toNat - 0xE2080 = c := by
  have hrange : inRange 0x80 0xBF b2 = true ↔ 0x80 ≤ b2.toNat ∧ b2.toNat ≤ 0xBF := inRange_iff
  rw [decodeNonASCIISequence, ← hrange]
  split_ifs <;> simp_all

theorem decode_four_iff : decodeNonASCIISequence [b0, b1, b2, b3] = some c ↔
      isSecondByte b0 b1 = true ∧ (0x80 ≤ b2.toNat ∧ b2.toNat ≤ 0xBF) ∧
        (0x80 ≤ b3.toNat ∧ b3.toNat ≤ 0xBF) ∧
        b0.toNat * 2 ^ 18 + b1.toNat * 2 ^ 12 + b2.toNat * 2 ^ 6 + b3.toNat - 0x3C82080 = c := by
  have hrange : inRange 0x80 0xBF b2 = true ↔ 0x80 ≤ b2.toNat ∧ b2.toNat ≤ 0xBF := inRange_iff
  have hrange' : inRange 0x80 0xBF b3 = true ↔ 0x80 ≤ b3.toNat ∧ b3.toNat ≤ 0xBF := inRange_iff
  rw [decodeNonASCIISequence, ← hrange, ← hrange']
  split_ifs <;> simp_all

/-- The decoder reads what the encoding writes. -/
theorem decode_utf8Encoding (hc : IsScalarValue c) (hascii : 0x80 ≤ c) :
    ∃ b rest, utf8Encoding c = b :: rest ∧ isASCII b = false ∧
      nonASCIISequenceLength b = rest.length + 1 ∧
      decodeNonASCIISequence (b :: rest) = some c := by
  have hlimit : c < 0x110000 := by rcases hc with h | h <;> omega
  have hsurrogate : c < 0xD800 ∨ 0xE000 ≤ c := hc.imp_right And.left
  rw [utf8Encoding, if_neg (by omega)]
  split_ifs with htwo hthree
  · refine ⟨_, _, rfl, ?_, ?_, decode_two_iff.mpr ?_⟩
    · rw [← Bool.not_eq_true, isASCII_iff, toNat_byte (by omega)]
      omega
    · rw [nonASCIISequenceLength_eq, toNat_byte (by omega), if_neg (by omega), if_pos (by omega)]
      rfl
    · rw [toNat_byte (by omega), toNat_byte (by omega)]
      omega
  · refine ⟨_, _, rfl, ?_, ?_, decode_three_iff.mpr ?_⟩
    · rw [← Bool.not_eq_true, isASCII_iff, toNat_byte (by omega)]
      omega
    · rw [nonASCIISequenceLength_eq, toNat_byte (by omega), if_neg (by omega), if_neg (by omega),
        if_pos (by omega)]
      rfl
    · rw [isSecondByte_iff, toNat_byte (by omega), toNat_byte (by omega), toNat_byte (by omega)]
      split_ifs <;> omega
  · refine ⟨_, _, rfl, ?_, ?_, decode_four_iff.mpr ?_⟩
    · rw [← Bool.not_eq_true, isASCII_iff, toNat_byte (by omega)]
      omega
    · rw [nonASCIISequenceLength_eq, toNat_byte (by omega), if_neg (by omega), if_neg (by omega),
        if_neg (by omega), if_pos (by omega)]
      rfl
    · rw [isSecondByte_iff, toNat_byte (by omega), toNat_byte (by omega), toNat_byte (by omega),
        toNat_byte (by omega)]
      split_ifs <;> omega

section

variable (hascii : isASCII b = false)
include hascii

/-- What the decoder reads is an encoding. -/
theorem utf8Encoding_of_decode (hlength : nonASCIISequenceLength b = rest.length + 1)
    (h : decodeNonASCIISequence (b :: rest) = some c) :
    IsScalarValue c ∧ utf8Encoding c = b :: rest := by
  rw [← Bool.not_eq_true, isASCII_iff] at hascii
  rw [nonASCIISequenceLength_eq] at hlength
  match rest, h, hlength with
  | [b1], h, hlength =>
    rw [decode_two_iff] at h
    have hfirst : b.toNat < 0xE0 := by split_ifs at hlength <;> first | assumption | cases hlength
    refine ⟨.inl (by omega), ?_⟩
    rw [utf8Encoding, if_neg (by omega), if_pos (by omega)]
    rw [ofNat_eq (b := b) (by omega), ofNat_eq (b := b1) (by omega)]
  | [b1, b2], h, hlength =>
    rw [decode_three_iff, isSecondByte_iff] at h
    have hfirst : 0xE0 ≤ b.toNat ∧ b.toNat < 0xF0 := by
      split_ifs at hlength <;> first | omega | cases hlength
    obtain ⟨hsecond, hthird, hvalue⟩ := h
    have hbounds : 0x800 ≤ c ∧ c < 0x10000 ∧ (c < 0xD800 ∨ 0xE000 ≤ c) := by
      split_ifs at hsecond <;> omega
    have hsecond' : 0x80 ≤ b1.toNat ∧ b1.toNat ≤ 0xBF := by split_ifs at hsecond <;> omega
    refine ⟨hbounds.2.2.imp_right fun h => ⟨h, by omega⟩, ?_⟩
    rw [utf8Encoding, if_neg (by omega), if_neg (by omega), if_pos (by omega)]
    rw [ofNat_eq (b := b) (by omega), ofNat_eq (b := b1) (by omega), ofNat_eq (b := b2) (by omega)]
  | [b1, b2, b3], h, hlength =>
    rw [decode_four_iff, isSecondByte_iff] at h
    have hfirst : 0xF0 ≤ b.toNat ∧ b.toNat < 0xF5 := by
      split_ifs at hlength <;> first | omega | cases hlength
    obtain ⟨hsecond, hthird, hfourth, hvalue⟩ := h
    have hbounds : 0x10000 ≤ c ∧ c < 0x110000 := by split_ifs at hsecond <;> omega
    have hsecond' : 0x80 ≤ b1.toNat ∧ b1.toNat ≤ 0xBF := by split_ifs at hsecond <;> omega
    refine ⟨.inr (by omega), ?_⟩
    rw [utf8Encoding, if_neg (by omega), if_neg (by omega), if_neg (by omega)]
    rw [ofNat_eq (b := b) (by omega), ofNat_eq (b := b1) (by omega), ofNat_eq (b := b2) (by omega),
      ofNat_eq (b := b3) (by omega)]

/-- Where a sequence starts that is not ASCII, the decoder reads one. -/
theorem decode_of_startsWellFormed (h : StartsWellFormed (b :: rest)) :
    nonASCIISequenceLength b ≠ 0 ∧ nonASCIISequenceLength b ≤ (b :: rest).length ∧
      decodeNonASCIISequence ((b :: rest).take (nonASCIISequenceLength b)) ≠ none := by
  obtain ⟨c, after, hc, heq⟩ := h
  by_cases hsmall : c < 0x80
  · rw [utf8Encoding, if_pos hsmall] at heq
    cases heq
    rw [← Bool.not_eq_true, isASCII_iff, toNat_byte (by omega)] at hascii
    exact absurd hsmall hascii
  · obtain ⟨b', rest', henc, -, hlength, hdecode⟩ := decode_utf8Encoding hc (not_lt.mp hsmall)
    rw [henc, cons_append] at heq
    cases heq
    refine ⟨by omega, by rw [hlength]; simp, ?_⟩
    rw [hlength, take_succ_cons, take_left, hdecode]
    exact Option.some_ne_none c

theorem not_startsWellFormed_of_short
    (h : (b :: rest).length < nonASCIISequenceLength b) : ¬StartsWellFormed (b :: rest) :=
  fun hstarts => Nat.not_le_of_lt h (decode_of_startsWellFormed hascii hstarts).2.1

theorem neverWellFormed_of_zero (h : nonASCIISequenceLength b = 0) : NeverWellFormed (b :: rest) :=
  fun _ hstarts => (decode_of_startsWellFormed hascii hstarts).1 h

theorem neverWellFormed_of_decode (hlength : nonASCIISequenceLength b ≤ (b :: rest).length)
    (h : decodeNonASCIISequence ((b :: rest).take (nonASCIISequenceLength b)) = none) :
    NeverWellFormed (b :: rest) := fun more hstarts => by
  have hmore : StartsWellFormed (b :: (rest ++ more)) := hstarts
  have hdecode := (decode_of_startsWellFormed hascii hmore).2.2
  rw [← cons_append, take_append_of_le_length hlength] at hdecode
  exact hdecode h

/-- The bytes of a sequence that is decoded. -/
theorem take_of_decode (hcount : nonASCIISequenceLength b ≠ 0)
    (hlength : nonASCIISequenceLength b ≤ (b :: rest).length)
    (h : decodeNonASCIISequence ((b :: rest).take (nonASCIISequenceLength b)) = some c) :
    IsScalarValue c ∧ utf8Encoding c = (b :: rest).take (nonASCIISequenceLength b) := by
  obtain ⟨n, hn⟩ := Nat.exists_eq_succ_of_ne_zero hcount
  rw [hn] at hlength
  rw [hn] at h ⊢
  refine utf8Encoding_of_decode hascii ?_ h
  rw [hn, length_take, Nat.min_eq_left (Nat.le_of_succ_le_succ hlength)]

end

/-! ## Steps -/

/-- Where a byte is skipped: with `flush` what there is counts, and else whatever may follow. -/
def IsErrorAt (flush : Bool) (bytes : List UInt8) : Prop :=
  if flush then ¬StartsWellFormed bytes else NeverWellFormed bytes

theorem NeverWellFormed.isErrorAt {bytes : List UInt8} (h : NeverWellFormed bytes) (flush : Bool) :
    IsErrorAt flush bytes := by
  cases flush
  · exact h
  · exact h.not_starts

/-- The bytes that are not read. -/
def State.left (state : State) : List UInt8 := state.m_partialSequence ++ state.source

/-- What one state writes after another is a reading of the bytes between them. -/
def Progress (flush : Bool) (state next : State) : Prop :=
  ∃ text sawError, next.destination = state.destination ++ text ∧
    next.sawError = (state.sawError || sawError) ∧
    Passes (IsErrorAt flush) state.left text sawError next.left

section Steps

variable {flush : Bool} {state next : State}

theorem Progress.refl (flush : Bool) (state : State) : Progress flush state state :=
  ⟨[], false, (append_nil _).symm, (Bool.or_false _).symm, .stop _⟩

theorem Progress.trans {last : State} (h : Progress flush state next)
    (h' : Progress flush next last) : Progress flush state last := by
  obtain ⟨text, sawError, hdestination, herror, hpasses⟩ := h
  obtain ⟨text', sawError', hdestination', herror', hpasses'⟩ := h'
  refine ⟨text ++ text', sawError || sawError', ?_, ?_, hpasses.trans hpasses'⟩
  · rw [hdestination', hdestination, append_assoc]
  · rw [herror', herror, Bool.or_assoc]

theorem Progress.of_left (hdestination : next.destination = state.destination)
    (herror : next.sawError = state.sawError) (hleft : next.left = state.left) :
    Progress flush state next := by
  refine ⟨[], false, ?_, ?_, ?_⟩
  · rw [hdestination, append_nil]
  · rw [herror, Bool.or_false]
  · rw [hleft]
    exact .stop _

/-- A byte is skipped. -/
theorem Progress.skip (h : IsErrorAt flush state.left) (hleft : state.left = b :: next.left)
    (hdestination : next.destination = state.destination ++ [replacementCharacter])
    (herror : next.sawError = true) : Progress flush state next := by
  refine ⟨[replacementUnit], true, hdestination, by rw [herror, Bool.or_true], ?_⟩
  rw [hleft] at h ⊢
  exact .error h (.stop _)

/-- A character is read. -/
theorem Progress.read (hc : IsScalarValue c)
    (hleft : state.left = utf8Encoding c ++ next.left)
    (hdestination : next.destination = state.destination ++ utf16Encoding c)
    (herror : next.sawError = state.sawError) : Progress flush state next := by
  refine ⟨utf16Encoding c ++ [], false, by rw [append_nil, hdestination],
    by rw [herror, Bool.or_false], ?_⟩
  rw [hleft]
  exact .character hc (.stop _)

/-- A decoded sequence leaves bytes behind it in the buffer, which are not the first bytes of the
buffer. -/
def LosesBytes (m_partialSequence : List UInt8) : Prop :=
  let count := nonASCIISequenceLength (m_partialSequence.headD 0)
  count ≤ m_partialSequence.length ∧ decodeNonASCIISequence (m_partialSequence.take count) ≠ none ∧
    m_partialSequence.take (m_partialSequence.length - count) ≠ m_partialSequence.drop count

instance (m_partialSequence : List UInt8) : Decidable (LosesBytes m_partialSequence) :=
  inferInstanceAs (Decidable (_ ∧ _ ∧ _))

theorem progress_handleError (hheld : state.m_partialSequence = b :: rest)
    (h : IsErrorAt flush state.left) : Progress flush state (state.handleError false) := by
  refine .skip (b := b) h ?_ rfl rfl
  rw [left, left]
  simp [handleError, hheld]

theorem progress_decodePartial (hheld : state.m_partialSequence = b :: rest)
    (hascii : isASCII b = false) (hcount : nonASCIISequenceLength b ≠ 0)
    (henough : nonASCIISequenceLength b ≤ state.m_partialSequence.length)
    (hkeeps : ¬LosesBytes state.m_partialSequence) :
    Progress flush state (state.decodePartial (nonASCIISequenceLength b) false).1 := by
  rw [decodePartial]
  split
  · next hdecode =>
    refine progress_handleError hheld (NeverWellFormed.isErrorAt ?_ flush)
    rw [left, hheld, cons_append]
    rw [hheld] at henough hdecode
    refine neverWellFormed_of_decode hascii ?_ ?_
    · rw [← cons_append, length_append]
      exact henough.trans (Nat.le_add_right _ _)
    · rw [← cons_append, take_append_of_le_length henough]
      exact hdecode
  · next character hdecode =>
    have hlast : state.m_partialSequence.take
        (state.m_partialSequence.length - nonASCIISequenceLength b) =
          state.m_partialSequence.drop (nonASCIISequenceLength b) := by
      by_contra hne
      refine hkeeps ⟨?_, ?_, ?_⟩ <;> rw [hheld, headD_cons, ← hheld]
      · exact henough
      · rw [hdecode]
        exact Option.some_ne_none character
      · exact hne
    have hsequence : IsScalarValue character ∧
        utf8Encoding character = (b :: rest).take (nonASCIISequenceLength b) :=
      take_of_decode hascii hcount (hheld ▸ henough) (hheld ▸ hdecode)
    rw [← hheld] at hsequence
    refine .read hsequence.1 ?_ (appendCharacter_eq _ _) rfl
    rw [left, left, hsequence.2, hlast, ← append_assoc, take_append_drop]

theorem left_fill (state : State) (count : ℕ) : (state.fill count).left = state.left := by
  simp only [left, fill, append_assoc, take_append_drop]

/-- An iteration over the buffer reads what there is, unless it loses bytes. -/
theorem progress_handleStep (hkeeps : ¬LosesBytes state.m_partialSequence) :
    Progress flush state (handleStep flush false state).1 := by
  rw [handleStep]
  split
  · exact .refl flush state
  · next b rest hheld =>
    split
    · next hascii =>
      refine .read (isScalarValue_of_ascii hascii) ?_ ?_ rfl
      · rw [utf8Encoding_ascii hascii, left, left]
        simp [consumePartialSequenceByte, hheld]
      · rw [utf16Encoding_ascii hascii]
    · next hnot =>
      have hascii : isASCII b = false := Bool.eq_false_iff.mpr hnot
      have hleft : state.left = b :: (rest ++ state.source) := by
        rw [left, hheld, cons_append]
      dsimp only
      split
      · next hzero =>
        refine progress_handleError hheld (NeverWellFormed.isErrorAt ?_ flush)
        rw [hleft]
        exact neverWellFormed_of_zero hascii hzero
      · next hcount =>
        split
        · next hshort =>
          split
          · next hmissing =>
            split
            · exact .of_left rfl rfl (by simp [left])
            · next hflush =>
              have hflush : flush = true := by simpa using hflush
              refine progress_handleError hheld ?_
              rw [IsErrorAt, if_pos hflush, hleft]
              refine not_startsWellFormed_of_short hascii ?_
              rw [← cons_append, ← hheld, length_append]
              omega
          · next henough =>
            have hfilled : (state.fill (nonASCIISequenceLength b)).m_partialSequence.length =
                nonASCIISequenceLength b := by
              simp only [fill, length_append, length_take]
              omega
            have hbuffer : (state.fill (nonASCIISequenceLength b)).m_partialSequence =
                b :: (rest ++ state.source.take
                  (nonASCIISequenceLength b - state.m_partialSequence.length)) := by
              simp only [fill, hheld, cons_append]
            have hkept : ¬LosesBytes (state.fill (nonASCIISequenceLength b)).m_partialSequence := by
              rintro ⟨-, -, hne⟩
              rw [hbuffer, headD_cons, ← hbuffer, hfilled, Nat.sub_self] at hne
              exact hne (drop_eq_nil_of_le hfilled.le).symm
            have hfill : Progress flush state (state.fill (nonASCIISequenceLength b)) :=
              .of_left rfl rfl (left_fill state _)
            exact hfill.trans (progress_decodePartial hbuffer hascii hcount hfilled.ge hkept)
        · next henough =>
          exact progress_decodePartial hheld hascii hcount (not_lt.mp henough) hkeeps

/-- The loop over the buffer is left within an iteration only where the next chunk is awaited. -/
theorem handleStep_exit (hheld : state.m_partialSequence ≠ [])
    (h : (handleStep flush false state).2 = false) :
    flush = false ∧ (handleStep flush false state).1.source = [] := by
  rw [handleStep] at h ⊢
  split at h
  · next hnil => exact absurd hnil hheld
  · split at h
    · cases h
    · next hascii =>
      rw [if_neg hascii]
      dsimp only at h ⊢
      split at h
      · cases h
      · next hcount =>
        rw [if_neg hcount]
        split at h
        · next hshort =>
          rw [if_pos hshort]
          split at h
          · next hmissing =>
            rw [if_pos hmissing]
            split at h
            · next hflush =>
              rw [if_pos hflush]
              exact ⟨by simpa using hflush, rfl⟩
            · cases h
          · exact absurd h (by rw [decodePartial]; split <;> simp)
        · exact absurd h (by rw [decodePartial]; split <;> simp)

/-! ## The loop over the buffer -/

theorem handleLoop_next_partial (h : (handleLoop flush false).Next state state') :
    state'.m_partialSequence ≠ [] := by
  intro hnil
  have hstep : ((handleStep flush false state).1,
      (handleStep flush false state).2 && !(handleStep flush false state).1.m_partialSequence.isEmpty) =
        (state', true) := h
  rw [Prod.mk.injEq] at hstep
  rw [hstep.1, hnil] at hstep
  simp at hstep

theorem progress_handlePartialSequence (hheld : state.m_partialSequence ≠ [])
    (hkeeps : ∀ next, Relation.ReflTransGen (handleLoop flush false).Next state next →
      ¬LosesBytes next.m_partialSequence) :
    Progress flush state (handlePartialSequence flush false state) ∧
      ((handlePartialSequence flush false state).m_partialSequence = [] ∨
        flush = false ∧ (handlePartialSequence flush false state).source = []) := by
  refine ⟨run_induction (.refl flush state) fun next hreach h =>
    h.trans (progress_handleStep (hkeeps next hreach)), ?_⟩
  obtain ⟨last, hreach, hend⟩ := (handleLoop flush false).run_spec state
  have hlast : last.m_partialSequence ≠ [] := by
    rcases hreach.cases_tail with rfl | ⟨before, -, hnext⟩
    · exact hheld
    · exact handleLoop_next_partial hnext
  have hstep : ((handleStep flush false last).1,
      (handleStep flush false last).2 && !(handleStep flush false last).1.m_partialSequence.isEmpty) =
        (handlePartialSequence flush false state, false) := hend
  rw [Prod.mk.injEq, Bool.and_eq_false_iff] at hstep
  obtain ⟨hresult, hfalse | hempty⟩ := hstep
  · rw [← hresult]
    exact .inr (handleStep_exit hlast hfalse)
  · rw [← hresult]
    exact .inl (by simpa using hempty)

/-! ## The loop over the source -/

theorem passes_ascii {isError : List UInt8 → Prop} {ascii : List UInt8} (rest : List UInt8)
    (h : ∀ b ∈ ascii, isASCII b = true) :
    Passes isError (ascii ++ rest) (ascii.map UInt8.toUInt16) false rest := by
  induction ascii with
  | nil => exact .stop rest
  | cons b ascii ih =>
    obtain ⟨hb, hascii⟩ := forall_mem_cons.mp h
    have hpass := Passes.character (isScalarValue_of_ascii hb) (ih hascii)
    rwa [utf8Encoding_ascii hb, utf16Encoding_ascii hb] at hpass

theorem isASCII_of_mem_words {source : List UInt8} (h : b ∈ source.take (asciiWordBytes source)) :
    isASCII b = true := by
  induction source using asciiWordBytes.induct with
  | case1 source hwords ih =>
    rw [asciiWordBytes, if_pos hwords, take_add, mem_append] at h
    rcases h with h | h
    · exact all_eq_true.mp hwords.2 b h
    · exact ih h
  | case2 source hwords =>
    rw [asciiWordBytes, if_neg hwords] at h
    cases h

theorem progress_copyASCII {count : ℕ} (hheld : state.m_partialSequence = [])
    (h : ∀ b ∈ state.source.take count, isASCII b = true) :
    Progress flush state (state.copyASCII count) := by
  refine ⟨(state.source.take count).map UInt8.toUInt16, false, rfl, (Bool.or_false _).symm, ?_⟩
  have hpass : Passes (IsErrorAt flush) (state.source.take count ++ state.source.drop count) _ false
      (state.source.drop count) := passes_ascii _ h
  rw [take_append_drop] at hpass
  simpa only [left, copyASCII, hheld, nil_append] using hpass

/-- An iteration over the source reads what there is, and the loop is left at its end. -/
theorem progress_decodeStep (flush : Bool) (endAddress : ℕ) (hheld : state.m_partialSequence = []) :
    Progress flush state (decodeStep false endAddress state).1 ∧
      ((decodeStep false endAddress state).2 = true →
        (decodeStep false endAddress state).1.m_partialSequence = []) ∧
      ((decodeStep false endAddress state).2 = false →
        (decodeStep false endAddress state).1.source = []) := by
  rw [decodeStep]
  split
  · next hnil => exact ⟨.refl flush state, by simp, fun _ => hnil⟩
  · next b rest hsource =>
    split
    · next hascii =>
      extract_lets aligned copied
      have hcopied : Progress flush state copied ∧ copied.m_partialSequence = [] := by
        dsimp only [copied]
        split
        · exact ⟨progress_copyASCII hheld fun b hb => isASCII_of_mem_words hb, hheld⟩
        · exact ⟨.refl flush state, hheld⟩
      split
      · next hnil => exact ⟨hcopied.1, by simp, fun _ => hnil⟩
      · next c rest' hc =>
        split
        · exact ⟨hcopied.1, fun _ => hcopied.2, by simp⟩
        · next hnot =>
          refine ⟨hcopied.1.trans (progress_copyASCII hcopied.2 ?_), fun _ => hcopied.2, by simp⟩
          rw [hc]
          simpa using hnot
    · next hnot =>
      have hascii : isASCII b = false := Bool.eq_false_iff.mpr hnot
      have hleft : state.left = b :: rest := by rw [left, hheld, hsource, nil_append]
      dsimp only
      split
      · refine ⟨.of_left rfl rfl ?_, by simp, fun _ => rfl⟩
        simp [left, hheld]
      · next hshort =>
        have henough : nonASCIISequenceLength b ≤ (b :: rest).length := by
          rw [← hsource]
          exact Nat.le_of_not_lt hshort
        split
        · next hnone =>
          rw [if_neg Bool.false_ne_true]
          refine ⟨.skip (b := b) (NeverWellFormed.isErrorAt ?_ flush) ?_ rfl rfl,
            fun _ => hheld, by simp⟩
          · rw [hleft]
            split at hnone
            · next hzero => exact neverWellFormed_of_zero hascii hzero
            · exact neverWellFormed_of_decode hascii henough (hsource ▸ hnone)
          · rw [hleft, left, hheld, nil_append]
        · next character hsome =>
          split at hsome
          · cases hsome
          · next hcount =>
            rw [hsource] at hsome ⊢
            have hsequence := take_of_decode hascii hcount henough hsome
            refine ⟨.read hsequence.1 ?_ (appendCharacter_eq _ _) rfl, fun _ => hheld, by simp⟩
            rw [hleft, left, hheld, nil_append, hsequence.2, take_append_drop]

theorem progress_decodeSource (flush : Bool) (endAddress : ℕ)
    (hheld : state.m_partialSequence = []) :
    Progress flush state (decodeSource false endAddress state) ∧
      (decodeSource false endAddress state).source = [] := by
  obtain ⟨last, hreach, hend⟩ := (sourceLoop false endAddress).run_spec state
  have hlast : Progress flush state last ∧ last.m_partialSequence = [] := by
    clear hend
    induction hreach with
    | refl => exact ⟨.refl flush state, hheld⟩
    | @tail x y _ hnext ih =>
      obtain ⟨hprogress, hkept, -⟩ := progress_decodeStep flush endAddress ih.2
      have hstep : decodeStep false endAddress x = (y, true) := hnext
      rw [hstep] at hprogress hkept
      exact ⟨ih.1.trans hprogress, hkept rfl⟩
  obtain ⟨hprogress, -, hexit⟩ := progress_decodeStep flush endAddress hlast.2
  have hstep : decodeStep false endAddress last = (decodeSource false endAddress state, false) := hend
  rw [hstep] at hprogress hexit
  exact ⟨hlast.1.trans hprogress, hexit rfl⟩

end Steps

/-! ## Calls -/

/-- The states in which an iteration over the buffer begins. -/
def Call.Handles (call : Call) (state : State) : Prop :=
  ∃ begins, Relation.ReflTransGen (passLoop call.flush false call.chunk.endAddress).Next call.start
      begins ∧ begins.m_partialSequence ≠ [] ∧
    Relation.ReflTransGen (handleLoop call.flush false).Next begins state

/-- No iteration over the buffer loses bytes. -/
def Call.Keeps (call : Call) : Prop :=
  ∀ state, call.Handles state → ¬LosesBytes state.m_partialSequence

theorem progress_decodePass (endAddress : ℕ) (hkeeps : state.m_partialSequence ≠ [] → ∀ next,
      Relation.ReflTransGen (handleLoop flush false).Next state next →
        ¬LosesBytes next.m_partialSequence) :
    Progress flush state (decodePass flush false endAddress state).1 ∧
      ((decodePass flush false endAddress state).2 = false →
        (decodePass flush false endAddress state).1.source = [] ∧
          (flush = true → (decodePass flush false endAddress state).1.m_partialSequence = [])) := by
  have hbuffer : Progress flush state (handleBuffer flush false state) ∧
      ((handleBuffer flush false state).m_partialSequence = [] ∨
        flush = false ∧ (handleBuffer flush false state).source = []) := by
    rw [handleBuffer]
    split
    · next hnil => exact ⟨.refl flush state, .inl hnil⟩
    · next hne => exact progress_handlePartialSequence hne (hkeeps hne)
  rw [decodePass]
  generalize handleBuffer flush false state = handled at hbuffer
  by_cases hempty : handled.m_partialSequence = []
  · rw [if_neg (not_not.mpr hempty)]
    obtain ⟨hprogress, hsource⟩ := progress_decodeSource flush endAddress hempty
    refine ⟨hbuffer.1.trans hprogress, fun hfalse => ⟨hsource, fun hflush => ?_⟩⟩
    dsimp only at hfalse
    rw [hflush, Bool.true_and, Bool.not_eq_false', List.isEmpty_iff] at hfalse
    exact hfalse
  · rw [if_pos hempty]
    obtain ⟨hflush, hsource⟩ := hbuffer.2.resolve_left hempty
    exact ⟨hbuffer.1, fun _ => ⟨hsource, fun htrue => by rw [hflush] at htrue; cases htrue⟩⟩

/-- A call reads all that there is, up to what is left in the buffer. -/
theorem Call.Keeps.progress (h : call.Keeps) :
    Progress call.flush call.start call.result ∧ call.result.source = [] ∧
      (call.flush = true → call.result.m_partialSequence = []) := by
  obtain ⟨last, hreach, hend⟩ :=
    (passLoop call.flush false call.chunk.endAddress).run_spec call.start
  have hpass : ∀ begins, Relation.ReflTransGen
      (passLoop call.flush false call.chunk.endAddress).Next call.start begins →
      begins.m_partialSequence ≠ [] → ∀ next,
        Relation.ReflTransGen (handleLoop call.flush false).Next begins next →
          ¬LosesBytes next.m_partialSequence := fun begins hbegins hne next hnext =>
    h next ⟨begins, hbegins, hne, hnext⟩
  have hlast : Progress call.flush call.start last := by
    clear hend
    induction hreach with
    | refl => exact .refl _ _
    | @tail x y hx hnext ih =>
      have hprogress := (progress_decodePass call.chunk.endAddress (hpass x hx)).1
      have hstep : decodePass call.flush false call.chunk.endAddress x = (y, true) := hnext
      rw [hstep] at hprogress
      exact ih.trans hprogress
  obtain ⟨hprogress, hexit⟩ := progress_decodePass call.chunk.endAddress (hpass last hreach)
  have hstep : decodePass call.flush false call.chunk.endAddress last = (call.result, false) := hend
  rw [hstep] at hprogress hexit
  exact ⟨hlast.trans hprogress, hexit rfl⟩

/-! ## Documents -/

theorem IsErrorAt.not_starts {flush : Bool} {bytes : List UInt8} (h : IsErrorAt flush bytes) :
    ¬StartsWellFormed bytes := by
  cases flush
  · exact NeverWellFormed.not_starts h
  · exact h

/-- The same, without the states. -/
theorem Call.Keeps.passes (h : call.Keeps) :
    ∃ newError, call.result.sawError = (call.sawError || newError) ∧
      Passes (IsErrorAt call.flush) (call.m_partialSequence ++ call.chunk.bytes)
        call.result.destination newError call.result.m_partialSequence := by
  obtain ⟨⟨text, newError, hdestination, herror, hpasses⟩, hsource, -⟩ := h.progress
  refine ⟨newError, herror, ?_⟩
  have hleft : call.result.left = call.result.m_partialSequence := by
    rw [left, hsource, append_nil]
  rw [hleft] at hpasses
  rw [hdestination]
  exact hpasses

theorem calls_cons (m_partialSequence : List UInt8) (sawError : Bool) (chunk chunk' : Chunk)
    (chunks : List Chunk) :
    calls m_partialSequence sawError (chunk :: chunk' :: chunks) =
      let call : Call := ⟨m_partialSequence, sawError, chunk, false⟩
      call :: calls call.result.m_partialSequence call.result.sawError (chunk' :: chunks) := rfl

theorem calls_ne_nil {sawError : Bool} (chunk : Chunk) (chunks : List Chunk) :
    calls m_partialSequence sawError (chunk :: chunks) ≠ [] := by
  cases chunks <;> exact cons_ne_nil _ _

/-- The calls for the chunks of a document read its bytes. -/
theorem reads_calls (hne : chunks ≠ []) {sawError : Bool}
    (hkeeps : ∀ call ∈ calls m_partialSequence sawError chunks, call.Keeps) :
    ∃ newError,
      ((calls m_partialSequence sawError chunks).getLast?.any fun call => call.result.sawError) =
        (sawError || newError) ∧
      Reads (m_partialSequence ++ chunks.flatMap Chunk.bytes)
        ((calls m_partialSequence sawError chunks).flatMap fun call => call.result.destination)
        newError := by
  induction chunks generalizing m_partialSequence sawError with
  | nil => exact absurd rfl hne
  | cons chunk chunks ih =>
    cases chunks with
    | nil =>
      have hcall := hkeeps _ (mem_singleton_self _)
      obtain ⟨newError, herror, hpasses⟩ := hcall.passes
      rw [hcall.progress.2.2 rfl] at hpasses
      refine ⟨newError, herror, ?_⟩
      rw [calls, flatMap_singleton, flatMap_singleton]
      exact hpasses.mono fun bytes => IsErrorAt.not_starts
    | cons chunk' chunks =>
      rw [calls_cons] at hkeeps ⊢
      obtain ⟨hcall, hcalls⟩ := forall_mem_cons.mp hkeeps
      obtain ⟨newError, herror, hpasses⟩ := hcall.passes
      obtain ⟨newError', hlast, hreads⟩ := ih (cons_ne_nil _ _) hcalls
      refine ⟨newError || newError', ?_, ?_⟩
      · rw [List.getLast?_cons_of_ne_nil (calls_ne_nil chunk' chunks), hlast, herror, Bool.or_assoc]
      · have happend := Passes.append hpasses ((chunk' :: chunks).flatMap Chunk.bytes)
        have hreading := (happend.mono fun bytes => NeverWellFormed.not_starts).trans hreads
        rwa [append_assoc] at hreading

/-! ## Bounds -/

/-- The bytes of the array `m_partialSequence`. -/
def u8MaxLength : ℕ := 4

theorem nonASCIISequenceLength_le (b : UInt8) : nonASCIISequenceLength b ≤ u8MaxLength := by
  rw [nonASCIISequenceLength]
  split_ifs <;> decide

section Bounds

variable {flush stopOnError : Bool} {state : State}

theorem length_handleError (h : state.m_partialSequence.length ≤ u8MaxLength) :
    (state.handleError stopOnError).m_partialSequence.length ≤ u8MaxLength := by
  rw [handleError]
  split
  · exact h
  · rw [length_tail]
    exact (Nat.sub_le _ _).trans h

section

variable {count : ℕ} (h : state.m_partialSequence.length ≤ u8MaxLength)
include h

theorem length_decodePartial :
    (state.decodePartial count stopOnError).1.m_partialSequence.length ≤ u8MaxLength := by
  rw [decodePartial]
  split
  · exact length_handleError h
  · exact (length_take_le _ _).trans ((Nat.sub_le _ _).trans h)

theorem length_fill (hcount : count ≤ u8MaxLength) :
    (state.fill count).m_partialSequence.length ≤ u8MaxLength := by
  rw [fill, length_append, length_take]
  omega

end

theorem length_handleStep (flush stopOnError : Bool)
    (h : state.m_partialSequence.length ≤ u8MaxLength) :
    (handleStep flush stopOnError state).1.m_partialSequence.length ≤ u8MaxLength := by
  rw [handleStep]
  split
  · exact h
  · next b rest hheld =>
    have hcount := nonASCIISequenceLength_le b
    split
    · rw [consumePartialSequenceByte, length_tail]
      exact (Nat.sub_le _ _).trans h
    · dsimp only
      split
      · exact length_handleError h
      · split
        · split
          · split
            · rw [length_append]
              omega
            · exact length_handleError h
          · exact length_decodePartial (length_fill h hcount)
        · exact length_decodePartial h

theorem length_decodeStep (h : state.m_partialSequence.length ≤ u8MaxLength) :
    (decodeStep stopOnError endAddress state).1.m_partialSequence.length ≤ u8MaxLength := by
  rw [decodeStep]
  split
  · exact h
  · next b rest hsource =>
    have hcount := nonASCIISequenceLength_le b
    split
    · extract_lets aligned copied
      have hcopied : copied.m_partialSequence = state.m_partialSequence := by
        dsimp only [copied]
        split <;> rfl
      split
      · rwa [hcopied]
      · split
        · rwa [hcopied]
        · rwa [copyASCII, hcopied]
    · dsimp only
      split
      · dsimp only
        omega
      · split
        · split
          all_goals exact h
        · exact h

theorem length_handleBuffer (flush stopOnError : Bool)
    (h : state.m_partialSequence.length ≤ u8MaxLength) :
    (handleBuffer flush stopOnError state).m_partialSequence.length ≤ u8MaxLength := by
  rw [handleBuffer]
  split
  · exact h
  · exact run_induction (P := fun next : State => next.m_partialSequence.length ≤ u8MaxLength) h
      fun next _ hnext => length_handleStep flush stopOnError hnext

theorem length_decodePass (flush stopOnError : Bool) (endAddress : ℕ)
    (h : state.m_partialSequence.length ≤ u8MaxLength) :
    (decodePass flush stopOnError endAddress state).1.m_partialSequence.length ≤ u8MaxLength := by
  have hbuffer := length_handleBuffer flush stopOnError h
  rw [decodePass]
  split
  · exact hbuffer
  · exact run_induction (P := fun next : State => next.m_partialSequence.length ≤ u8MaxLength)
      hbuffer fun next _ hnext => length_decodeStep hnext

theorem Call.length_result (h : call.m_partialSequence.length ≤ u8MaxLength) :
    call.result.m_partialSequence.length ≤ u8MaxLength :=
  run_induction (P := fun next : State => next.m_partialSequence.length ≤ u8MaxLength) h
    fun _ _ hnext => length_decodePass _ _ _ hnext

theorem length_of_mem_calls {sawError : Bool} (h : m_partialSequence.length ≤ u8MaxLength)
    (hcall : call ∈ calls m_partialSequence sawError chunks) :
    call.m_partialSequence.length ≤ u8MaxLength := by
  induction chunks generalizing m_partialSequence sawError with
  | nil => cases hcall
  | cons chunk chunks ih =>
    cases chunks with
    | nil =>
      rw [mem_singleton.mp hcall]
      exact h
    | cons chunk' chunks =>
      rcases mem_cons.mp hcall with rfl | hcall
      · exact h
      · exact ih (Call.length_result h) hcall

/-- The buffer within a call, where bytes were copied into it. -/
theorem Call.Handles.length_fill (h : call.Handles state)
    (hcall : call.m_partialSequence.length ≤ u8MaxLength) (b : UInt8) :
    (state.fill (nonASCIISequenceLength b)).m_partialSequence.length ≤ u8MaxLength := by
  obtain ⟨begins, hbegins, -, hreach⟩ := h
  have hstart : begins.m_partialSequence.length ≤ u8MaxLength := by
    clear hreach
    induction hbegins with
    | refl => exact hcall
    | @tail x y _ hnext ih =>
      have hkept := length_decodePass call.flush false call.chunk.endAddress ih
      have hstep : decodePass call.flush false call.chunk.endAddress x = (y, true) := hnext
      rwa [hstep] at hkept
  refine TextCodecUTF8.length_fill ?_ (nonASCIISequenceLength_le b)
  induction hreach with
  | refl => exact hstart
  | @tail x y _ hnext ih =>
    have hkept := length_handleStep call.flush false ih
    have hstep : ((handleStep call.flush false x).1, _) = (y, true) := hnext
    rwa [(Prod.mk.injEq _ _ _ _).mp hstep |>.1] at hkept

/-- The characters that are written and the bytes that are left. -/
def State.total (state : State) : ℕ := state.size + state.destination.length

theorem total_decodePass (flush stopOnError : Bool) (endAddress : ℕ) (state : State) :
    (decodePass flush stopOnError endAddress state).1.total ≤ state.total := by
  have hbuffer : (handleBuffer flush stopOnError state).total ≤ state.total := by
    rw [handleBuffer]
    split
    · exact le_rfl
    · exact run_induction (P := fun next : State => next.total ≤ state.total) le_rfl
        fun next _ hnext => (account_handleStep flush stopOnError next).total.trans hnext
  rw [decodePass]
  split
  · exact hbuffer
  · exact run_induction (P := fun next : State => next.total ≤ state.total) hbuffer
      fun next _ hnext => (sourceAccount_decodeStep stopOnError endAddress next).total.trans hnext

theorem Call.total_result (call : Call) :
    call.result.total ≤ call.m_partialSequence.length + call.chunk.bytes.length :=
  run_induction (P := fun next : State => next.total ≤ call.start.total) le_rfl
    fun _ _ hnext => (total_decodePass _ _ _ _).trans hnext

/-- A call writes no more characters than there were bytes. -/
theorem Call.length_destination (call : Call) :
    call.result.destination.length ≤ call.m_partialSequence.length + call.chunk.bytes.length := by
  have htotal := call.total_result
  rw [total] at htotal
  omega

/-- The bytes of a call, those that are held included, are as many as a `StringBuffer<UChar>` has
room for. -/
def Call.HasRoom (call : Call) : Prop :=
  call.m_partialSequence.length + call.chunk.bytes.length ≤ (2 ^ 32 - 1) / 2

theorem Call.HasRoom.bufferLength (h : call.HasRoom) : call.bufferLength =
    some (call.m_partialSequence.length + call.chunk.bytes.length) := by
  rw [HasRoom] at h
  rw [Call.bufferLength, stringBufferLength, Nat.mod_eq_of_lt (by omega), if_neg (by omega)]

end Bounds

/-! ## The document -/

/-- However a document is cut into chunks for which there are buffers, no call writes beyond its
buffers; and if no iteration over the buffer loses bytes, the calls write the one reading of all
bytes. -/
theorem reads_document {chunks : List Chunk} (hne : chunks ≠ [])
    (hroom : ∀ call ∈ calls [] false chunks, call.HasRoom) : (∀ call ∈ calls [] false chunks,
      call.bufferLength = some (call.m_partialSequence.length + call.chunk.bytes.length) ∧
      call.result.destination.length ≤ call.m_partialSequence.length + call.chunk.bytes.length ∧
      call.m_partialSequence.length ≤ u8MaxLength ∧
      call.result.m_partialSequence.length ≤ u8MaxLength ∧
      ∀ state, call.Handles state →
        (state.fill (nonASCIISequenceLength (state.m_partialSequence.headD 0))).m_partialSequence.length
          ≤ u8MaxLength) ∧
    ((∀ call ∈ calls [] false chunks, call.Keeps) →
      ∀ text sawError, Reads (chunks.flatMap Chunk.bytes) text sawError ↔
        decodedText chunks = text ∧ decodedError chunks = sawError) := by
  refine ⟨fun call hcall => ?_, fun hkeeps text sawError => ?_⟩
  · have hlength := length_of_mem_calls (Nat.zero_le _) hcall
    exact ⟨(hroom call hcall).bufferLength, call.length_destination, hlength, Call.length_result hlength,
      fun state hstate => hstate.length_fill hlength _⟩
  · obtain ⟨newError, herror, hreads⟩ := reads_calls hne hkeeps
    constructor
    · intro h
      obtain ⟨rfl, rfl⟩ := h.unique hreads
      exact ⟨rfl, herror⟩
    · rintro ⟨rfl, rfl⟩
      rw [decodedError, herror]
      exact hreads

/-! ## Examples -/

theorem LosesBytes.three_le (h : LosesBytes m_partialSequence) : 3 ≤ m_partialSequence.length := by
  obtain ⟨hle, hdecode, hne⟩ := h
  generalize m_partialSequence.headD 0 = b at hle hdecode hne
  have hcount : nonASCIISequenceLength b ≠ 0 := by
    intro hzero
    rw [hzero] at hdecode
    exact hdecode rfl
  have htwo := two_le_nonASCIISequenceLength hcount
  by_contra hshort
  have heq : nonASCIISequenceLength b = m_partialSequence.length := by omega
  rw [heq, Nat.sub_self, drop_length] at hne
  exact hne rfl

/-- Two bytes are too few to lose one. -/
theorem keeps_of_short (h : call.m_partialSequence.length + call.chunk.bytes.length ≤ 2) :
    call.Keeps := by
  rintro state ⟨begins, hbegins, -, hreach⟩
  have hstart : begins.total ≤ call.start.total := by
    clear hreach
    induction hbegins with
    | refl => exact le_rfl
    | @tail x y _ hnext ih =>
      have hless := total_decodePass call.flush false call.chunk.endAddress x
      have hstep : decodePass call.flush false call.chunk.endAddress x = (y, true) := hnext
      rw [hstep] at hless
      exact hless.trans ih
  have hstate : state.total ≤ begins.total := by
    induction hreach with
    | refl => exact le_rfl
    | @tail x y _ hnext ih =>
      have hless := (account_handleStep call.flush false x).total
      have hstep : ((handleStep call.flush false x).1, _) = (y, true) := hnext
      rw [(Prod.mk.injEq _ _ _ _).mp hstep |>.1] at hless
      exact hless.trans ih
  intro hloses
  have hthree := hloses.three_le
  have htotal : call.start.total = call.m_partialSequence.length + call.chunk.bytes.length := rfl
  rw [total, size] at hstate
  omega

/-- U+00E9, cut in two. -/
theorem reads_document_two : Reads [0xC3, 0xA9] (decodedText [⟨[0xC3], 1⟩, ⟨[0xA9], 2⟩])
      (decodedError [⟨[0xC3], 1⟩, ⟨[0xA9], 2⟩]) := by
  have hne : ([⟨[0xC3], 1⟩, ⟨[0xA9], 2⟩] : List Chunk) ≠ [] := cons_ne_nil _ _
  have hshort : ∀ call ∈ calls [] false [⟨[0xC3], 1⟩, ⟨[0xA9], 2⟩],
      call.m_partialSequence.length + call.chunk.bytes.length ≤ 2 := by
    refine forall_mem_cons.mpr ⟨by decide, fun call hcall => ?_⟩
    rw [mem_singleton.mp hcall]
    have htotal := Call.total_result ⟨[], false, ⟨[0xC3], 1⟩, false⟩
    rw [total, size] at htotal
    dsimp only [length_nil, length_singleton] at htotal ⊢
    omega
  exact ((reads_document hne fun call hcall => (hshort call hcall).trans (by decide)).2
    (fun call hcall => keeps_of_short (hshort call hcall)) _ _).mpr ⟨rfl, rfl⟩

/-- The bytes F0 C2 80, and 41 in the next chunk. -/
def cutSequence : List Chunk := [⟨[0xF0, 0xC2, 0x80], 3⟩, ⟨[0x41], 4⟩]

/-- The letter is lost: after U+0080 the buffer holds C2 in its place. -/
theorem decodedText_cutSequence : decodedText cutSequence = [0xFFFD, 0x80, 0xFFFD] := by
  have hfirst : (⟨[], false, ⟨[0xF0, 0xC2, 0x80], 3⟩, false⟩ : Call).result =
      ⟨[], [0xF0, 0xC2, 0x80], [], false⟩ := by
    have hsource : decodeSource false 3 ⟨[], [], [0xF0, 0xC2, 0x80], false⟩ =
        ⟨[], [0xF0, 0xC2, 0x80], [], false⟩ := run_of_false (by decide +kernel)
    exact run_of_false (congrArg (fun state => (state, false)) hsource)
  have hsecond : (⟨[0xF0, 0xC2, 0x80], false, ⟨[0x41], 4⟩, true⟩ : Call).result =
      ⟨[0xFFFD, 0x80, 0xFFFD], [], [], true⟩ := by
    have herror : (handleLoop true false).step ⟨[], [0xF0, 0xC2, 0x80], [0x41], false⟩ =
        (⟨[0xFFFD], [0xC2, 0x80, 0x41], [], true⟩, true) := by decide +kernel
    have hread : (handleLoop true false).step ⟨[0xFFFD], [0xC2, 0x80, 0x41], [], true⟩ =
        (⟨[0xFFFD, 0x80], [0xC2], [], true⟩, true) := by decide +kernel
    have hlast : (handleLoop true false).step ⟨[0xFFFD, 0x80], [0xC2], [], true⟩ =
        (⟨[0xFFFD, 0x80, 0xFFFD], [], [], true⟩, false) := by decide +kernel
    have hbuffer : handlePartialSequence true false ⟨[], [0xF0, 0xC2, 0x80], [0x41], false⟩ =
        ⟨[0xFFFD, 0x80, 0xFFFD], [], [], true⟩ := by
      rw [handlePartialSequence, run_of_true herror, run_of_true hread, run_of_false hlast]
    have hsource : decodeSource false 4 ⟨[0xFFFD, 0x80, 0xFFFD], [], [], true⟩ =
        ⟨[0xFFFD, 0x80, 0xFFFD], [], [], true⟩ := run_of_false rfl
    refine run_of_false ?_
    change decodePass true false 4 ⟨[], [0xF0, 0xC2, 0x80], [0x41], false⟩ = _
    rw [decodePass, handleBuffer, if_neg (cons_ne_nil _ _), hbuffer, hsource]
    rfl
  rw [decodedText, cutSequence, calls_cons]
  rw [flatMap_cons, hfirst, calls, flatMap_singleton, hsecond]
  rfl

theorem reads_cutSequence : Reads [0xF0, 0xC2, 0x80, 0x41] [0xFFFD, 0x80, 0x41] true := by
  have hrest : Reads [0xC2, 0x80, 0x41] [0x80, 0x41] false :=
    .character (c := 0x80) (.inl (by decide))
      (.character (c := 0x41) (.inl (by decide)) (.stop []))
  refine .error (NeverWellFormed.not_starts ?_) hrest
  exact neverWellFormed_of_decode (by decide +kernel) (by decide +kernel) (by decide +kernel)

/-- The text is not the reading of the bytes. -/
theorem not_reads_cutSequence : ¬Reads (cutSequence.flatMap Chunk.bytes) (decodedText cutSequence)
      (decodedError cutSequence) := by
  intro h
  have heq := (h.unique reads_cutSequence).1
  rw [decodedText_cutSequence] at heq
  exact absurd heq (by decide)

end WebKit.Text.TextCodecUTF8
