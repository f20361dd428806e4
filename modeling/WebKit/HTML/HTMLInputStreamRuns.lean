import WebKit.Text.SegmentedStringRuns
import WebKit.HTML.HTMLInputStream

/-!
# Runs of the input stream

In any order of records opened and closed, text inserted and appended, and characters consumed,
the strings of the stream hold what `Levels` says, and the characters are consumed in its order
(`Kept.step`).  The position saved by a record is reported again at the place where the record
ended, once the characters left before that place have been consumed (`AtMark`).
-/

namespace WebKit.HTML

open Text
open Text.SegmentedString (Valid)
open List SegmentedString HTMLInputStream InsertionPointRecord Option

namespace HTMLInputStream

/-! ## The strings of a stream -/

/-- The strings, the current one first. -/
def strings (stream : HTMLInputStream) : List SegmentedString :=
  stream.first :: stream.records.map next

/-- The text of each string. -/
def levels (stream : HTMLInputStream) : Levels := stream.strings.map characters

/-- What the stream keeps: strings with nothing pushed back, of which all but the last are open and
excluded from the line numbers, and a pointer to the last one. -/
structure Kept (stream : HTMLInputStream) : Prop where
  valid : ∀ s ∈ stream.strings, s.Valid ∧ s.pushedChar1 = 0
  inner : ∀ s ∈ stream.strings.dropLast, IsExcluded s ∧ s.closed = false
  last : stream.last = if stream.records = [] then .first else .next 0

theorem kept_empty : Kept empty := by
  constructor
  · intro s hs
    rw [mem_singleton.mp hs]
    exact ⟨valid_empty, rfl⟩
  · intro s hs
    cases hs
  · rfl

theorem modify_concat {α : Type*} (f : α → α) (x : α) : ∀ init : List α,
    (init ++ [x]).modify init.length f = init ++ [f x]
  | [] => rfl
  | y :: init => by
    rw [cons_append, length_cons, modify_succ_cons, modify_concat f x init]
    rfl

variable {stream : HTMLInputStream} {s other : SegmentedString} {way : Consumption}
  {line column : ℤ} {op : Operation}

/-- What `m_last` points to is the outermost string, and a change of it changes nothing else. -/
theorem Kept.outermost (h : stream.Kept) : ∃ inner, stream.strings = inner ++ [stream.lastString] ∧
      ∀ f, (stream.modifyLast f).strings = inner ++ [f stream.lastString] ∧
        (stream.modifyLast f).last = stream.last ∧
        (stream.modifyLast f).records.map (fun r => (r.line, r.column)) =
          stream.records.map fun r => (r.line, r.column) := by
  have hlast := h.last
  rcases eq_nil_or_concat stream.records with hrec | ⟨init, record, hrec⟩
  · rw [if_pos hrec] at hlast
    refine ⟨[], ?_, fun f => ?_⟩
    · rw [lastString, hlast, strings, hrec]
      rfl
    · have hmodify : stream.modifyLast f = { stream with first := f stream.first } := by
        rw [modifyLast, hlast]
      rw [hmodify, lastString, hlast]
      rw [hrec]
      exact ⟨rfl, rfl, rfl⟩
  · rw [concat_eq_append] at hrec
    rw [if_neg (by rw [hrec]; simp)] at hlast
    have hplace : stream.placeOf 0 = init.length := by
      rw [placeOf, hrec, length_append, length_singleton]
      omega
    have hget : stream.lastString = record.next := by
      rw [lastString, hlast]
      dsimp only
      rw [hplace, hrec, List.getElem?_append_right (Nat.le_refl _), Nat.sub_self]
      rfl
    refine ⟨stream.first :: init.map next, ?_, fun f => ?_⟩
    · rw [hget, strings, hrec, map_append]
      rfl
    · have hmodify : (stream.modifyLast f).records =
          init ++ [{ record with next := f record.next }] := by
        rw [modifyLast, hlast]
        dsimp only
        rw [hplace, hrec, modify_concat]
      refine ⟨?_, ?_, ?_⟩
      · rw [strings, hmodify, hget, map_append, modifyLast, hlast]
        rfl
      · rw [modifyLast, hlast]
      · rw [hmodify, hrec, map_append, map_append]
        rfl

/-! ## Single strings -/

theorem valid_setCurrentPosition (h : s.Valid) (line column length : ℤ) :
    (s.setCurrentPosition line column length).Valid :=
  { h with }

theorem valid_close (h : s.Valid) : s.close.Valid :=
  { h with }

/-- Each way to consume a character advances, after counting a newline or not. -/
theorem Consumption.apply_eq (h : stream.first.Valid)
    (hop : (Operation.consume way).Allowed stream) :
    way.apply stream.first = stream.first.advance ∨ (stream.first.startsWithCounted = true ∧
        way.apply stream.first = stream.first.countNewline.advance) := by
  -- what `advance(int&)` does
  have line : ∀ n, (stream.first.advanceLine n).1 = stream.first.advance ∨
      (stream.first.startsWithCounted = true ∧
        (stream.first.advanceLine n).1 = stream.first.countNewline.advance) := by
    intro n
    rw [h.advanceLine_eq]
    cases hstart : stream.first.startsWithCounted with
    | false => exact Or.inl rfl
    | true => exact Or.inr ⟨rfl, rfl⟩
  cases way with
  | advance => exact Or.inl rfl
  | advanceLine n => exact line n
  | advancePastNewline n =>
    rw [Consumption.apply, h.advancePastNewline_eq n hop]
    exact line n
  | advancePastNonNewline => exact Or.inl rfl

/-- A consumed character leaves the string. -/
theorem Consumption.spec (h : stream.first.Valid) (hp : stream.first.pushedChar1 = 0)
    (hop : (Operation.consume way).Allowed stream) :
    (way.apply stream.first).Valid ∧ (way.apply stream.first).pushedChar1 = 0 ∧
      (way.apply stream.first).text = stream.first.text.tail ∧
      (way.apply stream.first).closed = stream.first.closed ∧
      (way.apply stream.first).numberOfCharactersConsumed =
        stream.first.numberOfCharactersConsumed + (if stream.first.text = [] then 0 else 1) := by
  have unescaped : ∀ s : SegmentedString, s.Valid → s.pushedChar1 = 0 → s.advance.pushedChar1 = 0 := by
    intro s hs hps
    refine pushedChar1_of_pushed ?_
    rw [hs.pushed_advance, pushed_of_not_escaped hps]
    rfl
  rcases Consumption.apply_eq h hop with heq | ⟨-, heq⟩
  · have hadv := h.advances
    rw [heq]
    exact ⟨hadv.valid, unescaped _ h hp, hadv.text, hadv.closed, hadv.consumed⟩
  · have hadv := h.countNewline.advances
    rw [heq]
    exact ⟨hadv.valid, unescaped _ h.countNewline hp, hadv.text, hadv.closed, hadv.consumed⟩

/-- Appending a text with nothing pushed back. -/
theorem append_spec (h : s.Valid) (hp : s.pushedChar1 = 0) (hother : other.Valid)
    (hpo : other.pushedChar1 = 0) :
    (s.append other).Valid ∧ (s.append other).pushedChar1 = 0 ∧
      (s.append other).text = s.text ++ other.text ∧ (s.append other).closed = s.closed ∧
      (s.append other).currentLineNumber = s.currentLineNumber ∧
      (s.append other).numberOfCharactersConsumedPriorToCurrentLine =
        s.numberOfCharactersConsumedPriorToCurrentLine ∧
      (other.Fresh →
        (s.append other).numberOfCharactersConsumed = s.numberOfCharactersConsumed) := by
  obtain ⟨hext, hv, hunread, htaken⟩ := h.append hother
  have hp' := hext.pushedChar1.trans hp
  refine ⟨hv, hp', ?_, hext.closed, hext.line, hext.priorToLine, fun hfresh => ?_⟩
  · rw [text_of_not_escaped hp', hunread, text_of_not_escaped hp, text_of_not_escaped hpo]
  · rw [numberOfCharactersConsumed_eq, htaken hfresh, hext.pushed]
    rfl

theorem characters_of_text {s' s'' : SegmentedString} (h : s''.text = s.text ++ s'.text) :
    s''.characters = s.characters ++ s'.characters := by
  rw [characters, h, map_append]
  rfl

/-! ## Steps -/

/-- What an operation does: the strings stay in order, and their texts are those of `Levels`. -/
structure StepsTo (stream : HTMLInputStream) (op : Operation) : Prop where
  kept : (stream.step op).Kept
  levels : (stream.step op).levels = stream.levels.step op
  consumed : stream.consumed op = stream.levels.consumed op

variable (h : stream.Kept)

include h

theorem Kept.first :
    stream.first.Valid ∧ stream.first.pushedChar1 = 0 := h.valid _ mem_cons_self

/-- A stream with its current string changed. -/
theorem Kept.withFirst (hs : s.Valid ∧ s.pushedChar1 = 0)
    (hinner : stream.records ≠ [] → IsExcluded s ∧ s.closed = false) :
    Kept { stream with first := s } := by
  have hvalid := h.valid
  have hin := h.inner
  constructor
  · intro s' hs'
    rcases mem_cons.mp hs' with rfl | hs'
    · exact hs
    · exact hvalid s' (mem_cons_of_mem _ hs')
  · intro s' hs'
    cases hrec : stream.records with
    | nil =>
      rw [hrec] at hs'
      cases hs'
    | cons record rest =>
      rw [hrec] at hs'
      rw [strings, hrec] at hin
      rcases mem_cons.mp hs' with rfl | hs'
      · exact hinner (by rw [hrec]; exact cons_ne_nil _ _)
      · exact hin s' (mem_cons_of_mem _ hs')
  · exact h.last

/-- A current string inside an insertion point is excluded and open. -/
theorem Kept.first_inner (hrec : stream.records ≠ []) :
    IsExcluded stream.first ∧ stream.first.closed = false := by
  refine h.inner _ ?_
  obtain ⟨record, rest, heq⟩ := exists_cons_of_ne_nil hrec
  rw [strings, heq]
  exact mem_cons_self

theorem Kept.stepsTo_openRecord : StepsTo stream .openRecord := by
  constructor
  · constructor
    · intro s hs
      rcases mem_cons.mp hs with rfl | hs
      · exact ⟨valid_setCurrentPosition valid_empty _ _ _, rfl⟩
      · exact h.valid s hs
    · intro s hs
      change s ∈ stream.openRecord.strings.dropLast at hs
      rcases mem_cons.mp hs with rfl | hs
      · refine ⟨fun e he => ?_, rfl⟩
        cases he
      · exact h.inner s hs
    · have hlast := h.last
      change (if stream.last = .first then StringPointer.next stream.records.length
        else stream.last) = .next 0
      by_cases hrec : stream.records = []
      · rw [if_pos hrec] at hlast
        rw [if_pos hlast, hrec]
        rfl
      · rw [if_neg hrec] at hlast
        rw [hlast]
        rfl
  all_goals rfl

theorem Kept.stepsTo_consume (hop : (Operation.consume way).Allowed stream) :
    StepsTo stream (.consume way) := by
  obtain ⟨hv, hp, ht, hcl, -⟩ := Consumption.spec h.first.1 h.first.2 hop
  have hchars : (way.apply stream.first).characters = stream.first.characters.tail := by
    rw [characters, ht, map_tail]
    rfl
  constructor
  · refine h.withFirst ⟨hv, hp⟩ fun hrec => ⟨fun e he => ?_, ?_⟩
    · rw [ht] at he
      exact (h.first_inner hrec).1 e (mem_of_mem_tail he)
    · rw [hcl]
      exact (h.first_inner hrec).2
  · change (way.apply stream.first).characters :: _ = stream.first.characters.tail :: _
    rw [hchars]
    rfl
  · change stream.first.current.toList = stream.first.characters.head?.toList
    rw [h.first.1.current_eq]

variable {string : SegmentedString} {f : SegmentedString → SegmentedString}
  {rest : List InsertionPointRecord} {d : ℕ}

theorem Kept.stepsTo_insert
    (hop : (Operation.insertAtCurrentInsertionPoint string).Allowed stream) :
    StepsTo stream (.insertAtCurrentInsertionPoint string) := by
  obtain ⟨htext, hexcluded, hclosed⟩ := hop
  obtain ⟨hv, hp, ht, hcl, -⟩ := append_spec h.first.1 h.first.2 htext.valid
    (escaped_eq_false.mp htext.unescaped)
  constructor
  · refine h.withFirst ⟨hv, hp⟩ fun hrec => ⟨fun e he => ?_, ?_⟩
    · rw [ht] at he
      rcases mem_append.mp he with he | he
      · exact (h.first_inner hrec).1 e he
      · exact hexcluded e he
    · rw [hcl]
      exact hclosed
  · change (stream.first.append string).characters :: _ = (_ ++ _) :: _
    rw [characters_of_text ht]
    rfl
  · rfl

/-- A change of the last string that puts a text at its end. -/
theorem Kept.modifyLast
    (text : List UChar) (hf : ∀ s : SegmentedString, s.Valid → s.pushedChar1 = 0 →
      (f s).Valid ∧ (f s).pushedChar1 = 0 ∧ (f s).characters = s.characters ++ text) :
    (stream.modifyLast f).Kept ∧
      (stream.modifyLast f).levels = Levels.appendLast text stream.levels := by
  obtain ⟨inner, hstrings, hmodify⟩ := h.outermost
  obtain ⟨hstrings', hlast, hsaved⟩ := hmodify f
  have hlastString := h.valid stream.lastString (by rw [hstrings]; simp)
  obtain ⟨hv, hp, hchars⟩ := hf _ hlastString.1 hlastString.2
  refine ⟨⟨fun s hs => ?_, fun s hs => ?_, ?_⟩, ?_⟩
  · rw [hstrings'] at hs
    rcases mem_append.mp hs with hs | hs
    · exact h.valid s (by rw [hstrings]; exact mem_append_left _ hs)
    · rw [mem_singleton.mp hs]
      exact ⟨hv, hp⟩
  · rw [hstrings', dropLast_concat] at hs
    exact h.inner s (by rw [hstrings, dropLast_concat]; exact hs)
  · have hnil : (stream.modifyLast f).records = [] ↔ stream.records = [] := by
      rw [← map_eq_nil_iff, hsaved, map_eq_nil_iff]
    rw [hlast, h.last]
    simp only [hnil]
  · have hlevels : stream.levels = inner.map characters ++ [stream.lastString.characters] := by
      rw [levels, hstrings, map_append]
      rfl
    have hlength : stream.levels.length - 1 = (inner.map characters).length := by
      rw [hlevels, length_append, length_singleton, Nat.add_sub_cancel]
    rw [Levels.appendLast, hlength, hlevels, modify_concat, levels, hstrings', map_append]
    exact congrArg (inner.map characters ++ [·]) hchars

theorem Kept.stepsTo_appendToEnd (hop : (Operation.appendToEnd string).Allowed stream) :
    StepsTo stream (.appendToEnd string) := by
  obtain ⟨htext, -⟩ := hop
  have hmodify := h.modifyLast (f := fun s => s.append string) string.characters
    fun s hv hp => by
      obtain ⟨hv', hp', ht, -⟩ := append_spec hv hp htext.valid
        (escaped_eq_false.mp htext.unescaped)
      exact ⟨hv', hp', characters_of_text ht⟩
  exact ⟨hmodify.1, hmodify.2, rfl⟩

theorem Kept.stepsTo_markEndOfFile : StepsTo stream .markEndOfFile := by
  have hmodify := h.modifyLast
    (f := fun s => (s.append (ofString [endOfFileMarker])).close)
    [endOfFileMarker] fun s hv hp => by
      obtain ⟨hv', hp', ht, -⟩ := append_spec hv hp
        (valid_ofString [endOfFileMarker]) rfl
      exact ⟨valid_close hv', hp', characters_of_text ht⟩
  exact ⟨hmodify.1, hmodify.2, rfl⟩

/-- The current string after a record has gone. -/
def mergedString (stream : HTMLInputStream) (record : InsertionPointRecord) : SegmentedString :=
  let appended := stream.first.append record.next
  (if record.next.isClosed then appended.close else appended).setCurrentPosition record.line
    record.column stream.first.length

omit h in
theorem closeRecord_eq {record : InsertionPointRecord}
    (hrec : stream.records = record :: rest) :
    stream.closeRecord =
      { first := stream.mergedString record
        last := if stream.last = .next rest.length then .first else stream.last
        records := rest } := by
  unfold closeRecord
  rw [hrec]
  rfl

theorem Kept.record {record : InsertionPointRecord}
    (hmem : record ∈ stream.records) : record.next.Valid ∧ record.next.pushedChar1 = 0 :=
  h.valid _ (mem_cons_of_mem _ (mem_map_of_mem hmem))

/-- The merged string has the text of both, and is closed when the string of the record was. -/
theorem Kept.mergedString {record : InsertionPointRecord} (hmem : record ∈ stream.records) :
    (stream.mergedString record).Valid ∧ (stream.mergedString record).pushedChar1 = 0 ∧
      (stream.mergedString record).text = stream.first.text ++ record.next.text ∧
      (stream.mergedString record).closed = (record.next.closed || stream.first.closed) := by
  have hnext := h.record hmem
  obtain ⟨hv, hp, ht, hcl, -⟩ := append_spec h.first.1 h.first.2 hnext.1 hnext.2
  rw [HTMLInputStream.mergedString, isClosed]
  cases hclosed : record.next.closed with
  | false => exact ⟨valid_setCurrentPosition hv _ _ _, hp, ht, hcl⟩
  | true => exact ⟨valid_setCurrentPosition (valid_close hv) _ _ _, hp, ht, rfl⟩

theorem Kept.stepsTo_closeRecord (hop : stream.records ≠ []) :
    StepsTo stream .closeRecord := by
  obtain ⟨record, rest, hrec⟩ := exists_cons_of_ne_nil hop
  have hmem : record ∈ stream.records := hrec ▸ mem_cons_self
  obtain ⟨hv, hp, ht, hcl⟩ := h.mergedString hmem
  have hstep : stream.step .closeRecord = _ := closeRecord_eq hrec
  have hstrings : stream.strings = stream.first :: record.next ::
      rest.map next := by rw [strings, hrec, map_cons]
  constructor
  · rw [hstep]
    constructor
    · intro s hs
      rcases mem_cons.mp hs with rfl | hs
      · exact ⟨hv, hp⟩
      · refine h.valid s ?_
        rw [hstrings]
        exact mem_cons_of_mem _ (mem_cons_of_mem _ hs)
    · intro s hs
      have hin := h.inner
      rw [hstrings] at hin
      cases rest with
      | nil => cases hs
      | cons record' rest' =>
        rcases mem_cons.mp hs with rfl | hs
        · have hfirst := hin _ mem_cons_self
          have hnext := hin _ (mem_cons_of_mem _ mem_cons_self)
          refine ⟨fun e he => ?_, ?_⟩
          · rw [ht] at he
            rcases mem_append.mp he with he | he
            · exact hfirst.1 e he
            · exact hnext.1 e he
          · rw [hcl, hfirst.2, hnext.2]
            rfl
        · exact hin s (mem_cons_of_mem _ (mem_cons_of_mem _ hs))
    · have hlast := h.last
      rw [if_neg hop] at hlast
      cases rest with
      | _ => rw [hlast]; rfl
  · rw [hstep]
    change (stream.mergedString record).characters :: _ = Levels.merge stream.levels
    rw [levels, hstrings, characters_of_text ht]
    rfl
  · rfl

/-- Every operation does what `Levels` says. -/
theorem Kept.step (hop : op.Allowed stream) : StepsTo stream op := by
  cases op with
  | openRecord => exact h.stepsTo_openRecord
  | closeRecord => exact h.stepsTo_closeRecord hop
  | insertAtCurrentInsertionPoint string => exact h.stepsTo_insert hop
  | appendToEnd string => exact h.stepsTo_appendToEnd hop
  | markEndOfFile => exact h.stepsTo_markEndOfFile
  | consume way => exact h.stepsTo_consume hop

omit h in
/-- So does every sequence of operations. -/
theorem Kept.run : ∀ {ops : List Operation} {stream : HTMLInputStream}, stream.Kept →
    stream.AllowedRun ops →
      (stream.run ops).1.Kept ∧ (stream.run ops).1.levels = (Levels.run stream.levels ops).1 ∧
        (stream.run ops).2 = (Levels.run stream.levels ops).2
  | [], _, h, _ => ⟨h, rfl, rfl⟩
  | op :: ops, stream, h, hrun => by
    have hstep := h.step hrun.1
    obtain ⟨hkept, hlevels, hconsumed⟩ := Kept.run hstep.kept hrun.2
    rw [hstep.levels] at hlevels hconsumed
    refine ⟨hkept, hlevels, ?_⟩
    rw [HTMLInputStream.run, Levels.run, hconsumed, hstep.consumed]

/-! ## Positions -/

/-- A place in the text of a string: the string, counted from the current one, and the number of
characters before the place. -/
structure Mark where
  level : ℕ
  distance : ℕ

/-- Where an operation puts a place.  There is none once its character was consumed, or once the
record around it has gone and set another position. -/
def Mark.step (stream : HTMLInputStream) (op : Operation) : Mark → Option Mark
  | ⟨0, 0⟩ =>
    match op with
    | .openRecord => some ⟨1, 0⟩
    | .closeRecord => none
    | .consume _ => if stream.first.isEmpty then some ⟨0, 0⟩ else none
    | _ => some ⟨0, 0⟩
  | ⟨0, d + 1⟩ =>
    match op with
    | .openRecord => some ⟨1, d + 1⟩
    | .closeRecord => none
    | .consume _ => some ⟨0, d⟩
    | _ => some ⟨0, d + 1⟩
  | ⟨level + 1, d⟩ =>
    match op with
    | .openRecord => some ⟨level + 2, d⟩
    | .closeRecord =>
      match level with
      | 0 => some ⟨0, stream.first.length + d⟩
      | level + 1 => some ⟨level + 1, d⟩
    | _ => some ⟨level + 1, d⟩

/-- Where a sequence of operations puts a place. -/
def Mark.run (stream : HTMLInputStream) : List Operation → Mark → Option Mark
  | [], m => some m
  | op :: ops, m =>
    match m.step stream op with
    | none => none
    | some m' => Mark.run (stream.step op) ops m'

/-- The string will report the position once `distance` characters have been consumed: none of
them counts as a line. -/
structure Reports (s : SegmentedString) (distance : ℕ) (sLine sColumn line column : ℤ) : Prop where
  length : distance ≤ s.text.length
  excluded : ∀ e ∈ s.text.take distance, e.2 = false
  line : sLine = line
  column : sColumn + distance = column

/-- The stream will report the position when it comes to the place. -/
def AtMark (stream : HTMLInputStream) (m : Mark) (line column : ℤ) : Prop :=
  match m.level with
  | 0 => Reports stream.first m.distance stream.first.currentLine stream.first.currentColumn line
      column
  | level + 1 => ∃ record, stream.records[level]? = some record ∧
      Reports record.next m.distance record.line record.column line column

omit h in
/-- A text appended to a string changes no place in it. -/
theorem Reports.append {s' : SegmentedString} {t : List (UChar × Bool)}
    {sLine sColumn : ℤ} (h : Reports s d sLine sColumn line column)
    (ht : s'.text = s.text ++ t) : Reports s' d sLine sColumn line column := by
  have hle := h.length
  constructor
  · rw [ht, length_append]
    omega
  · rw [ht, take_append_of_le_length hle]
    exact h.excluded
  · exact h.line
  · exact h.column

omit h in
/-- A fresh text appended to a string leaves its position. -/
theorem position_append (h : s.Valid) (hp : s.pushedChar1 = 0) (hother : IsFreshText other) :
    (s.append other).currentLine = s.currentLine ∧
      (s.append other).currentColumn = s.currentColumn := by
  obtain ⟨-, -, -, -, hl, hprior, hconsumed⟩ := append_spec h hp hother.valid
    (escaped_eq_false.mp hother.unescaped)
  refine ⟨hl, ?_⟩
  rw [currentColumn, currentColumn, hconsumed hother.fresh, hprior]

omit h in
/-- What a change of the last string does to each string. -/
theorem modifyLast_get (stream : HTMLInputStream) (f : SegmentedString → SegmentedString) :
    ((stream.modifyLast f).first = stream.first ∨ (stream.modifyLast f).first = f stream.first) ∧
      ∀ (level : ℕ) (record : InsertionPointRecord), stream.records[level]? = some record →
        (stream.modifyLast f).records[level]? = some record ∨
          (stream.modifyLast f).records[level]? = some { record with next := f record.next } := by
  rw [modifyLast]
  split
  · exact ⟨Or.inr rfl, fun level record hget => Or.inl hget⟩
  · refine ⟨Or.inl rfl, fun level record hget => ?_⟩
    rw [List.getElem?_modify, hget]
    split
    · exact Or.inr rfl
    · exact Or.inl rfl

/-- Changing the last string by putting a fresh text at its end changes no position. -/
theorem Kept.atMark_modifyLast (hm : AtMark stream m line column) (hother : IsFreshText other)
    (hf : ∀ s, (f s).text = (s.append other).text ∧
      (f s).currentLine = (s.append other).currentLine ∧
      (f s).currentColumn = (s.append other).currentColumn) :
    AtMark (stream.modifyLast f) m line column := by
  have happend : ∀ s : SegmentedString, s.Valid → s.pushedChar1 = 0 →
      (f s).text = s.text ++ other.text := by
    intro s hv hp
    rw [(hf s).1]
    exact (append_spec hv hp hother.valid
      (escaped_eq_false.mp hother.unescaped)).2.2.1
  obtain ⟨hfirst, hrecords⟩ := stream.modifyLast_get f
  obtain ⟨level, d⟩ := m
  cases level with
  | zero =>
    rcases hfirst with heq | heq
    · rw [AtMark, heq]
      exact hm
    · have hpos := position_append h.first.1 h.first.2 hother
      rw [AtMark, heq]
      rw [(hf _).2.1, (hf _).2.2, hpos.1, hpos.2]
      exact Reports.append hm (happend _ h.first.1 h.first.2)
  | succ level =>
    obtain ⟨record, hget, hreports⟩ := hm
    rcases hrecords level record hget with heq | heq
    · exact ⟨record, heq, hreports⟩
    · have hnext := h.record (mem_of_getElem? hget)
      exact ⟨_, heq, hreports.append (happend _ hnext.1 hnext.2)⟩

/-- Consuming a character before the place, or none, leaves the place where it is reported. -/
theorem Kept.atMark_consume (hop : (Operation.consume way).Allowed stream)
    (hm : AtMark stream ⟨0, d⟩ line column)
    (hd : d = d' + 1 ∨ (d = 0 ∧ d' = 0 ∧ stream.first.text = [])) :
    AtMark (stream.step (.consume way)) ⟨0, d'⟩ line column := by
  have hstart : stream.first.startsWithCounted = false := by
    rw [startsWithCounted]
    cases htext : stream.first.text with
    | nil => rfl
    | cons e rest =>
      obtain ⟨c, counted⟩ := e
      rcases hd with rfl | ⟨-, -, hnil⟩
      · exact hm.excluded (c, counted) (by rw [htext]; exact mem_cons_self)
      · rw [htext] at hnil
        cases hnil
  have hadv := h.first.1.advances
  have heq : way.apply stream.first = stream.first.advance := by
    rcases Consumption.apply_eq h.first.1 hop with heq | ⟨hstart', -⟩
    · exact heq
    · rw [hstart] at hstart'
      cases hstart'
  have hfirst : (stream.step (.consume way)).first = stream.first.advance := heq
  have hlength := hm.length
  have hcolumn := hm.column
  rw [currentColumn] at hcolumn
  rw [AtMark, hfirst]
  dsimp only at hlength hcolumn ⊢
  rcases hd with rfl | ⟨rfl, rfl, hnil⟩
  · have hne : stream.first.text ≠ [] := fun hnil => by
      rw [hnil] at hlength
      exact absurd hlength (by simp)
    constructor
    · rw [hadv.text, length_tail]
      omega
    · intro e he
      refine hm.excluded e ?_
      rw [hadv.text] at he
      obtain ⟨e', rest, htext⟩ := exists_cons_of_ne_nil hne
      rw [htext]
      rw [htext] at he
      exact mem_cons_of_mem _ he
    · exact hadv.line.trans hm.line
    · rw [currentColumn, hadv.consumed, hadv.priorToLine, if_neg hne]
      omega
  · constructor
    · exact Nat.zero_le _
    · intro e he
      cases he
    · exact hadv.line.trans hm.line
    · rw [currentColumn, hadv.consumed, hadv.priorToLine, if_pos hnil]
      omega

/-- When a record goes, its position will be reported after the characters left before it. -/
theorem Kept.atMark_closed {record : InsertionPointRecord} (hrec : stream.records = record :: rest)
    (hm : Reports record.next d record.line record.column line column) :
    AtMark (stream.step .closeRecord) ⟨0, stream.first.length + d⟩ line column := by
  have hmem : record ∈ stream.records := hrec ▸ mem_cons_self
  have hne : stream.records ≠ [] := by rw [hrec]; exact cons_ne_nil _ _
  obtain ⟨-, -, ht, -⟩ := h.mergedString hmem
  have hfirst : (stream.step .closeRecord).first = stream.mergedString record := by
    rw [HTMLInputStream.step, closeRecord_eq hrec]
  have hlength := hm.length
  have hcolumn := hm.column
  have hlen := h.first.1.length_eq
  rw [AtMark, hfirst]
  dsimp only
  constructor
  · rw [ht, length_append]
    omega
  · intro e he
    rw [ht, hlen, take_append, take_of_length_le (by omega), Nat.add_sub_cancel_left] at he
    rcases mem_append.mp he with he | he
    · exact (h.first_inner hne).1 e he
    · exact hm.excluded e he
  · exact hm.line
  · have hposition : (stream.mergedString record).currentColumn =
        record.column - stream.first.length := by
      rw [HTMLInputStream.mergedString]
      generalize (if record.next.isClosed = true then
        (stream.first.append record.next).close else stream.first.append record.next) = s
      change s.numberOfCharactersConsumed -
        (s.numberOfCharactersConsumed + stream.first.length - record.column) = _
      omega
    omega

/-- A place is followed by every operation. -/
theorem Kept.atMark_step (hop : op.Allowed stream) {m : Mark}
    (hm : AtMark stream m line column) (hstep : m.step stream op = some m') :
    AtMark (stream.step op) m' line column := by
  have hclose : ∀ s : SegmentedString, s.close.text = s.text ∧
      s.close.currentLine = s.currentLine ∧ s.close.currentColumn = s.currentColumn :=
    fun s => ⟨rfl, rfl, rfl⟩
  have hmarker : IsFreshText (ofString [endOfFileMarker]) :=
    ⟨valid_ofString _, rfl, rfl, by simp [ofString]⟩
  cases op with
  | openRecord =>
    obtain ⟨level, d⟩ := m
    cases level with
    | zero =>
      have hm' : m' = ⟨1, d⟩ := by
        cases d <;> exact (some_inj.mp hstep).symm
      subst hm'
      exact ⟨_, rfl, hm⟩
    | succ level =>
      cases some_inj.mp hstep
      exact hm
  | closeRecord =>
    obtain ⟨record, rest, hrec⟩ := exists_cons_of_ne_nil hop
    obtain ⟨level, d⟩ := m
    cases level with
    | zero => cases d <;> cases hstep
    | succ level =>
      obtain ⟨record', hget, hreports⟩ := hm
      cases level with
      | zero =>
        cases some_inj.mp hstep
        rw [hrec] at hget
        cases some_inj.mp hget
        exact h.atMark_closed hrec hreports
      | succ level =>
        cases some_inj.mp hstep
        rw [hrec] at hget
        refine ⟨record', ?_, hreports⟩
        rw [HTMLInputStream.step, closeRecord_eq hrec]
        exact hget
  | insertAtCurrentInsertionPoint string =>
    obtain ⟨htext, -, -⟩ := hop
    obtain ⟨level, d⟩ := m
    cases level with
    | zero =>
      have hm' : m' = ⟨0, d⟩ := by
        cases d <;> exact (some_inj.mp hstep).symm
      subst hm'
      have hpos := position_append h.first.1 h.first.2 htext
      have ht := (append_spec h.first.1 h.first.2 htext.valid
        (escaped_eq_false.mp htext.unescaped)).2.2.1
      change Reports (stream.first.append string) d (stream.first.append string).currentLine
        (stream.first.append string).currentColumn line column
      rw [hpos.1, hpos.2]
      exact Reports.append hm ht
    | succ level =>
      cases some_inj.mp hstep
      exact hm
  | appendToEnd string =>
    have hm' : m' = m := by
      obtain ⟨_ | level, _ | d⟩ := m <;> exact (some_inj.mp hstep).symm
    subst hm'
    exact h.atMark_modifyLast hm hop.1 fun s => ⟨rfl, rfl, rfl⟩
  | markEndOfFile =>
    have hm' : m' = m := by
      obtain ⟨_ | level, _ | d⟩ := m <;> exact (some_inj.mp hstep).symm
    subst hm'
    exact h.atMark_modifyLast hm hmarker fun s => hclose _
  | consume way =>
    obtain ⟨level, d⟩ := m
    cases level with
    | zero =>
      cases d with
      | zero =>
        rw [Mark.step] at hstep
        split at hstep
        · rename_i hempty
          cases some_inj.mp hstep
          exact h.atMark_consume hop hm (Or.inr ⟨rfl, rfl, h.first.1.isEmpty_iff.mp hempty⟩)
        · cases hstep
      | succ d =>
        cases some_inj.mp hstep
        exact h.atMark_consume hop hm (Or.inl rfl)
    | succ level =>
      cases some_inj.mp hstep
      exact hm

omit h in
/-- A place is followed by every sequence of operations. -/
theorem Kept.atMark_run : ∀ {ops : List Operation} {stream : HTMLInputStream} {m m' : Mark}
    {line column : ℤ}, stream.Kept → stream.AllowedRun ops → AtMark stream m line column →
      m.run stream ops = some m' → AtMark (stream.run ops).1 m' line column
  | [], _, _, _, _, _, _, _, hm, hrun => by
    cases some_inj.mp hrun
    exact hm
  | op :: ops, stream, m, m', _, _, h, hallowed, hm, hrun => by
    rw [Mark.run] at hrun
    cases hstep : m.step stream op with
    | none =>
      rw [hstep] at hrun
      cases hrun
    | some m'' =>
      rw [hstep] at hrun
      have hrest := Kept.atMark_run (h.step hallowed.1).kept hallowed.2
        (h.atMark_step hallowed.1 hm hstep) hrun
      exact hrest

/-! ## Nesting -/

/-- The positions saved by the open records. -/
def saved (stream : HTMLInputStream) : List (ℤ × ℤ) :=
  stream.records.map fun r => (r.line, r.column)

/-- A sequence of operations that closes the records it opens, and no others. -/
inductive Balanced : List Operation → Prop
  | nil : Balanced []
  | single {op : Operation} : op ≠ .openRecord → op ≠ .closeRecord → Balanced [op]
  | nest {ops : List Operation} : Balanced ops → Balanced (.openRecord :: ops ++ [.closeRecord])
  | append {ops ops' : List Operation} : Balanced ops → Balanced ops' → Balanced (ops ++ ops')

omit h in
theorem run_append (stream : HTMLInputStream) (ops ops' : List Operation) :
    (stream.run (ops ++ ops')).1 = ((stream.run ops).1.run ops').1 := by
  induction ops generalizing stream with
  | nil => rfl
  | cons op ops ih => exact ih _

omit h in
theorem allowedRun_append {ops ops' : List Operation} : stream.AllowedRun (ops ++ ops') ↔
      stream.AllowedRun ops ∧ (stream.run ops).1.AllowedRun ops' := by
  induction ops generalizing stream with
  | nil => exact (iff_of_eq (true_and _)).symm
  | cons op ops ih =>
    rw [cons_append, AllowedRun, ih, AllowedRun, and_assoc]
    rfl

theorem Kept.saved_step (hopen : op ≠ .openRecord) (hclose : op ≠ .closeRecord) :
    (stream.step op).saved = stream.saved := by
  obtain ⟨_, -, hmodify⟩ := h.outermost
  cases op with
  | openRecord => exact absurd rfl hopen
  | closeRecord => exact absurd rfl hclose
  | insertAtCurrentInsertionPoint string => rfl
  | appendToEnd | markEndOfFile => exact (hmodify _).2.2
  | consume way => rfl

omit h in
/-- A balanced sequence leaves the saved positions as they are. -/
theorem Kept.saved_run {ops : List Operation} (hops : Balanced ops) :
    ∀ {stream : HTMLInputStream}, stream.Kept → stream.AllowedRun ops →
      (stream.run ops).1.saved = stream.saved := by
  induction hops with
  | nil => exact fun _ _ => rfl
  | single hopen hclose => exact fun h _ => h.saved_step hopen hclose
  | @nest ops _ ih =>
    intro stream h hallowed
    have hmiddle := allowedRun_append.mp (show stream.AllowedRun
      ((.openRecord :: ops) ++ [.closeRecord]) from hallowed)
    have hsaved : (stream.openRecord.run ops).1.saved = stream.openRecord.saved :=
      ih h.stepsTo_openRecord.kept hmiddle.1.2
    have hrun : (stream.run (.openRecord :: ops ++ [.closeRecord])).1 =
        ((stream.openRecord.run ops).1).closeRecord := run_append stream (.openRecord :: ops) _
    rw [hrun]
    generalize (stream.openRecord.run ops).1 = inner at hsaved
    cases hrec : inner.records with
    | nil =>
      rw [saved, hrec] at hsaved
      cases hsaved
    | cons record rest =>
      change inner.saved = _ :: stream.saved at hsaved
      rw [saved, hrec, map_cons, List.cons.injEq] at hsaved
      rw [closeRecord_eq hrec]
      exact hsaved.2
  | @append ops ops' _ _ ih ih' =>
    intro stream h hallowed
    rw [allowedRun_append] at hallowed
    rw [run_append, ih' (h.run hallowed.1).1 hallowed.2, ih h hallowed.1]

/-! ## Nothing lost -/

/-- The text that an operation gives to the stream. -/
def given : Operation → List UChar
  | .insertAtCurrentInsertionPoint string => string.characters
  | .appendToEnd string => string.characters
  | .markEndOfFile => [endOfFileMarker]
  | _ => []

omit h in
theorem flatten_appendLast {levels : Levels} (hne : levels ≠ []) (text : List UChar) :
    (Levels.appendLast text levels).flatten = levels.flatten ++ text := by
  obtain ⟨init, level, heq⟩ := (eq_nil_or_concat levels).resolve_left hne
  rw [concat_eq_append] at heq
  subst heq
  rw [Levels.appendLast, length_append, length_singleton, Nat.add_sub_cancel, modify_concat]
  simp

omit h in
/-- An operation only moves characters and adds those given. -/
theorem perm_step {levels : Levels} (hne : levels ≠ []) (op : Operation) :
    (levels.consumed op ++ (levels.step op).flatten).Perm (levels.flatten ++ given op) ∧
      levels.step op ≠ [] := by
  obtain ⟨level, rest, rfl⟩ := exists_cons_of_ne_nil hne
  cases op with
  | openRecord =>
    refine ⟨?_, cons_ne_nil _ _⟩
    rw [show given .openRecord = [] from rfl, append_nil]
    exact List.Perm.refl _
  | closeRecord =>
    cases rest with
    | nil =>
      refine ⟨?_, cons_ne_nil _ _⟩
      rw [show given .closeRecord = [] from rfl, append_nil]
      exact List.Perm.refl _
    | cons level' rest =>
      refine ⟨?_, cons_ne_nil _ _⟩
      rw [show given .closeRecord = [] from rfl, append_nil, Levels.step, Levels.merge, flatten_cons, append_assoc]
      exact List.Perm.refl _
  | insertAtCurrentInsertionPoint string =>
    refine ⟨?_, cons_ne_nil _ _⟩
    rw [Levels.step, Levels.appendFirst, flatten_cons, flatten_cons, append_assoc, append_assoc]
    exact List.Perm.append_left level perm_append_comm
  | appendToEnd | markEndOfFile =>
    refine ⟨?_, ?_⟩
    · rw [Levels.step, flatten_appendLast hne]
      exact List.Perm.refl _
    · rw [Levels.step, Levels.appendLast, ne_eq, modify_eq_nil_iff]
      exact hne
  | consume way =>
    refine ⟨?_, cons_ne_nil _ _⟩
    rw [show given (.consume way) = [] from rfl, append_nil]
    cases level with
    | _ => exact List.Perm.refl _

omit h in
theorem perm_run : ∀ {ops : List Operation} {levels : Levels}, levels ≠ [] →
    ((Levels.run levels ops).2 ++ (Levels.run levels ops).1.flatten).Perm
      (levels.flatten ++ (ops.map given).flatten)
  | [], _, _ => by
    rw [map_nil, flatten_nil, append_nil]
    exact List.Perm.refl _
  | op :: ops, levels, hne => by
    obtain ⟨hperm, hne'⟩ := perm_step hne op
    have ih : ((Levels.run (levels.step op) ops).2 ++
        (Levels.run (levels.step op) ops).1.flatten).Perm
          ((levels.step op).flatten ++ (ops.map given).flatten) := perm_run hne'
    rw [Levels.run, map_cons, flatten_cons, append_assoc]
    refine (List.Perm.append_left _ ih).trans ?_
    rw [← append_assoc, ← append_assoc]
    exact List.Perm.append_right _ hperm

/-! ## The end of the file -/

/-- The operations that close the outermost string. -/
def Operation.closes : Operation → Bool
  | .markEndOfFile => true
  | _ => false

theorem Kept.getLast?_strings :
    stream.strings.getLast? = some stream.lastString := by
  obtain ⟨inner, hstrings, -⟩ := h.outermost
  rw [hstrings, List.getLast?_concat]

/-- The closed flag of the outermost string is known from the strings. -/
theorem Kept.closed_of_strings (hs : stream.strings.getLast? = some s) :
    stream.lastString.closed = s.closed := by
  rw [h.getLast?_strings] at hs
  rw [some_inj.mp hs]

/-- A change of the current string that leaves its closed flag leaves that of the outermost. -/
theorem Kept.closed_withFirst (hkept : Kept { stream with first := s })
    (hs : s.closed = stream.first.closed) :
    (lastString { stream with first := s }).closed = stream.lastString.closed := by
  rcases eq_nil_or_concat stream.records with hrec | ⟨init, record, hrec⟩
  · have hnew : strings { stream with first := s } = [s] := by
      rw [hrec]
      rfl
    have hold : stream.strings = [stream.first] := by
      rw [strings, hrec]
      rfl
    rw [hkept.closed_of_strings (s := s) (by rw [hnew]; rfl),
      h.closed_of_strings (s := stream.first) (by rw [hold]; rfl), hs]
  · refine hkept.closed_of_strings ?_
    rw [← h.getLast?_strings, strings, strings, hrec, concat_eq_append, map_append]
    exact (List.getLast?_concat (l := _ :: _)).trans (List.getLast?_concat (l := _ :: _)).symm

/-- The closed flag stays with the outermost text, and only the end of the file sets it. -/
theorem Kept.closed_step (hop : op.Allowed stream) :
    (stream.step op).lastString.closed = (stream.lastString.closed || op.closes) := by
  have hkept := (h.step hop).kept
  obtain ⟨inner, hstrings, hmodify⟩ := h.outermost
  cases op with
  | openRecord =>
    simp only [Operation.closes, Bool.or_false]
    refine hkept.closed_of_strings ?_
    rw [← h.getLast?_strings]
    exact List.getLast?_cons_cons
  | closeRecord =>
    obtain ⟨record, rest, hrec⟩ := exists_cons_of_ne_nil hop
    have hmem : record ∈ stream.records := hrec ▸ mem_cons_self
    have hold : stream.strings = stream.first :: record.next ::
        rest.map next := by rw [strings, hrec, map_cons]
    have hnew : (stream.step .closeRecord).strings = stream.mergedString record ::
        rest.map next := by
      rw [HTMLInputStream.step, closeRecord_eq hrec]
      rfl
    simp only [Operation.closes, Bool.or_false]
    cases rest with
    | nil =>
      rw [hkept.closed_of_strings (s := stream.mergedString record) (by rw [hnew]; rfl),
        h.closed_of_strings (s := record.next) (by rw [hold]; rfl), (h.mergedString hmem).2.2.2,
        (h.first_inner hop).2, Bool.or_false]
    | cons record' rest' =>
      refine hkept.closed_of_strings ?_
      rw [← h.getLast?_strings, hnew, hold, map_cons, List.getLast?_cons_cons,
        List.getLast?_cons_cons, List.getLast?_cons_cons]
  | insertAtCurrentInsertionPoint string =>
    obtain ⟨htext, -, -⟩ := hop
    simp only [Operation.closes, Bool.or_false]
    exact h.closed_withFirst hkept (append_spec h.first.1 h.first.2 htext.valid
      (escaped_eq_false.mp htext.unescaped)).2.2.2.1
  | appendToEnd string =>
    obtain ⟨htext, -⟩ := hop
    have hlast := h.valid stream.lastString (by rw [hstrings]; simp)
    simp only [Operation.closes, Bool.or_false]
    rw [hkept.closed_of_strings (s := stream.lastString.append string)
        (by rw [HTMLInputStream.step, appendToEnd, (hmodify _).1, List.getLast?_concat])]
    exact (append_spec hlast.1 hlast.2 htext.valid
      (escaped_eq_false.mp htext.unescaped)).2.2.2.1
  | markEndOfFile =>
    rw [Operation.closes, Bool.or_true, hkept.closed_of_strings
        (s := (stream.lastString.append (ofString [endOfFileMarker])).close)
        (by rw [HTMLInputStream.step, markEndOfFile, (hmodify _).1, List.getLast?_concat])]
    rfl
  | consume way =>
    simp only [Operation.closes, Bool.or_false]
    exact h.closed_withFirst hkept (Consumption.spec h.first.1 h.first.2 hop).2.2.2.1

omit h in
/-- The end of the file has been seen when it has been marked. -/
theorem Kept.closed_run : ∀ {ops : List Operation} {stream : HTMLInputStream}, stream.Kept →
    stream.AllowedRun ops →
      (stream.run ops).1.lastString.closed = (stream.lastString.closed || ops.any Operation.closes)
  | [], _, _, _ => (Bool.or_false _).symm
  | op :: ops, stream, h, hrun => by
    rw [HTMLInputStream.run, Kept.closed_run (h.step hrun.1).kept hrun.2, h.closed_step hrun.1,
      any_cons, Bool.or_assoc]

/-! ## Every run -/

/-- What every run from the empty stream does. -/
structure RunCorrect (ops : List Operation) : Prop where
  /-- The characters are consumed in the order of the levels. -/
  order : (empty.run ops).2 = (Levels.run [[]] ops).2 ∧
    (empty.run ops).1.levels = (Levels.run [[]] ops).1
  /-- Nothing is lost or duplicated. -/
  perm : ((empty.run ops).2 ++ (empty.run ops).1.levels.flatten).Perm (ops.map given).flatten
  /-- `m_last` denotes the outermost string, which is the current one when no record is open. -/
  last : (empty.run ops).1.strings.getLast? = some (empty.run ops).1.lastString ∧
    ((empty.run ops).1.hasInsertionPoint ↔ (empty.run ops).1.records ≠ [])
  /-- The closed flag stays with the outermost text. -/
  closed : (empty.run ops).1.haveSeenEndOfFile = ops.any Operation.closes
  /-- After a record has gone, the position it saved is reported again where its remainder ends,
  unless an enclosing record goes before that place is reached. -/
  position : ∀ before middle after, ops = before ++ .openRecord :: middle ++ .closeRecord :: after →
    Balanced middle →
      let opened := (empty.run before).1
      let ended := (empty.run (before ++ .openRecord :: middle)).1
      Mark.run ended.closeRecord after ⟨0, ended.first.length⟩ = some ⟨0, 0⟩ →
        (empty.run ops).1.first.currentLine = opened.first.currentLine ∧
          (empty.run ops).1.first.currentColumn = opened.first.currentColumn

/-- A record that goes has the position of when it was opened. -/
theorem Kept.position_closed {middle : List Operation}
    (hallowed : stream.AllowedRun (.openRecord :: middle ++ [.closeRecord]))
    (hmiddle : Balanced middle) :
    AtMark (stream.run (.openRecord :: middle)).1.closeRecord
      ⟨0, (stream.run (.openRecord :: middle)).1.first.length⟩
      stream.first.currentLine stream.first.currentColumn := by
  obtain ⟨⟨-, hrun⟩, hclose, -⟩ := allowedRun_append.mp (show stream.AllowedRun
    ((.openRecord :: middle) ++ [.closeRecord]) from hallowed)
  have hopened : stream.openRecord.Kept := h.stepsTo_openRecord.kept
  have hsaved : (stream.openRecord.run middle).1.saved = stream.openRecord.saved :=
    hopened.saved_run hmiddle hrun
  have hended : (stream.openRecord.run middle).1.Kept := (hopened.run hrun).1
  change AtMark (stream.openRecord.run middle).1.closeRecord
    ⟨0, (stream.openRecord.run middle).1.first.length⟩ _ _
  generalize (stream.openRecord.run middle).1 = ended at hsaved hended
  change ended.saved = (stream.first.currentLine, stream.first.currentColumn) :: stream.saved
    at hsaved
  cases hrec : ended.records with
  | nil =>
    rw [saved, hrec] at hsaved
    cases hsaved
  | cons record rest =>
    rw [saved, hrec, map_cons, List.cons.injEq, Prod.mk.injEq] at hsaved
    refine hended.atMark_closed hrec (d := 0) ⟨Nat.zero_le _, fun e he => ?_, hsaved.1.1, ?_⟩
    · cases he
    · rw [hsaved.1.2]
      exact Int.add_zero _

omit h

/-- Every run consumes the characters in order, loses none, keeps `m_last` at the outermost string,
and reports the saved positions again. -/
theorem allowedRun_correct (ops : List Operation) (hallowed : empty.AllowedRun ops) :
    RunCorrect ops := by
  obtain ⟨hkept, hlevels, hconsumed⟩ := kept_empty.run hallowed
  constructor
  · exact ⟨hconsumed, hlevels⟩
  · rw [hlevels, hconsumed]
    exact perm_run (cons_ne_nil _ _)
  · refine ⟨hkept.getLast?_strings, ?_⟩
    rw [hasInsertionPoint, hkept.last]
    by_cases hrec : (empty.run ops).1.records = [] <;> simp [hrec]
  · exact kept_empty.closed_run hallowed
  · intro before middle after hops hmiddle opened ended hrun
    have hsplit : ops = before ++ ((.openRecord :: middle ++ [.closeRecord]) ++ after) := by
      rw [hops]
      simp
    rw [hsplit, allowedRun_append, allowedRun_append] at hallowed
    obtain ⟨hbefore, hmid, hafter⟩ := hallowed
    have hopened : opened.Kept := (kept_empty.run hbefore).1
    have hended : ended = (opened.run (.openRecord :: middle)).1 := run_append _ _ _
    have hclosed : (opened.run (.openRecord :: middle ++ [.closeRecord])).1 = ended.closeRecord := by
      rw [hended]
      exact run_append opened (.openRecord :: middle) [.closeRecord]
    have hfinal : (empty.run ops).1 = (ended.closeRecord.run after).1 := by
      rw [hsplit, run_append, run_append, ← hclosed]
    have hmark := hopened.position_closed hmid hmiddle
    rw [← hended] at hmark
    have hkept' := (hopened.run hmid).1
    rw [hclosed] at hkept' hafter
    have hat := hkept'.atMark_run hafter hmark hrun
    rw [hfinal]
    refine ⟨hat.line, ?_⟩
    exact (Int.add_zero _).symm.trans hat.column

/-- A text as `document.write` gives it to the stream. -/
def written (characters : List UChar) : SegmentedString :=
  (ofString characters).setExcludeLineNumbers

theorem allowed_written (hclosed : stream.first.closed = false) (characters : List UChar) :
    (Operation.insertAtCurrentInsertionPoint (written characters)).Allowed stream := by
  obtain ⟨hvalid, htext⟩ := (valid_ofString characters).setExcludeLineNumbers
  refine ⟨⟨hvalid, rfl, rfl, ?_⟩, fun e he => ?_, hclosed⟩
  · simp [written, setExcludeLineNumbers, ofString]
  · rw [written, htext] at he
    obtain ⟨e', -, rfl⟩ := mem_map.mp he
    rfl

/-- A letter is read, a record inside writes another one, and it is read when that record has gone. -/
theorem allowedRun_correct_letter :
    RunCorrect [.openRecord, .insertAtCurrentInsertionPoint (written [120]),
      .insertAtCurrentInsertionPoint (written [121]), .consume .advance, .openRecord,
      .insertAtCurrentInsertionPoint (written [122]), .closeRecord, .consume .advance,
      .consume .advance, .closeRecord] :=
  allowedRun_correct _
    ⟨trivial, allowed_written rfl [120], allowed_written rfl [121], trivial, trivial,
      allowed_written rfl [122], cons_ne_nil _ _, trivial, trivial, cons_ne_nil _ _, trivial⟩

/-! ### An enclosing record that goes first -/

/-- After a record has gone, the position it saved is reported as soon as exactly the characters
left in the stream at that time have been consumed. -/
def PositionRestored (before middle after : List Operation) : Prop :=
  let opened := (empty.run before).1
  let ended := (empty.run (before ++ .openRecord :: middle)).1
  (ended.closeRecord.run after).2 = ended.first.characters →
    (ended.closeRecord.run after).1.first.currentLine = opened.first.currentLine ∧
      (ended.closeRecord.run after).1.first.currentColumn = opened.first.currentColumn

/-- In a record that has two characters left when it goes, of which the first was left by a record
inside it, the position of the inner record is not reported after that one. -/
theorem enclosing_record_resets_position : empty.AllowedRun
        ([.openRecord, .insertAtCurrentInsertionPoint (written [120]),
          .insertAtCurrentInsertionPoint (written [121]), .consume .advance, .openRecord,
          .insertAtCurrentInsertionPoint (written [122]), .closeRecord, .closeRecord,
          .consume .advance]) ∧
      Balanced [.insertAtCurrentInsertionPoint (written [122])] ∧
      ¬PositionRestored
        [.openRecord, .insertAtCurrentInsertionPoint (written [120]),
          .insertAtCurrentInsertionPoint (written [121]), .consume .advance]
        [.insertAtCurrentInsertionPoint (written [122])]
        [.closeRecord, .consume .advance] := by
  refine ⟨?_, Balanced.single (by simp) (by simp), fun h => ?_⟩
  · refine ⟨trivial, allowed_written rfl [120], allowed_written rfl [121],
      trivial, trivial, allowed_written rfl [122], ?_, ?_, trivial, trivial⟩
    all_goals exact cons_ne_nil _ _
  · exact absurd (h (by decide)).2 (by decide)

end HTMLInputStream

end WebKit.HTML
