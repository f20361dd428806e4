import WebKit.Page.CSPSourceList

/-!
# Database identifiers

`SecurityOrigin::databaseIdentifier` of `page/SecurityOrigin.cpp`, and `encodeForFileName` of
`platform/FileSystem.cpp`, with its buffer.  `none` is a write past the end of the buffer: its size
is computed in 32 bits, so that it may be too small for a string of a third of 2 ^ 32 characters.

* `identifies_iff`: identifiers tell origins apart, as long as the encoded hosts fit.
-/

namespace WebKit.Page

open WTF List

/-! ## Encoding -/

/-- The entries of the table that are true. -/
def needsEscaping (c : UChar) : Bool :=
  c ≤ 0x20 || [0x22, 0x25, 0x2a, 0x2f, 0x3a, 0x3c, 0x3e, 0x3f, 0x5c, 0x7c, 0x7f].contains c

def shouldEscapeUChar (c : UChar) : Bool := if c > 127 then false else needsEscaping c

def hexDigit (n : ℕ) : UChar := ("0123456789ABCDEF".toList.map ch).getD n 0

/-- A write at the end of what is written. -/
def place (bufferSize : ℕ) (c : UChar) (buffer : UString) : Option UString :=
  if buffer.length < bufferSize then some (buffer ++ [c]) else none

def placeByteAsHex (bufferSize : ℕ) (byte : ℕ) (buffer : UString) : Option UString := do
  let buffer ← place bufferSize (hexDigit (byte / 16)) buffer
  place bufferSize (hexDigit (byte % 16)) buffer

/-- A turn of the loop. -/
def encodeUChar (bufferSize : ℕ) (buffer : UString) (c : UChar) : Option UString :=
  if shouldEscapeUChar c then do
    let buffer ← place bufferSize (ch '%') buffer
    placeByteAsHex bufferSize c.toNat buffer
  else place bufferSize c buffer

/-- The size of the buffer is an `unsigned`. -/
def encodeForFileName (inputStr : UString) : Option UString :=
  inputStr.foldlM (encodeUChar ((inputStr.length * 3 + 1) % 2 ^ 32)) []

/-! ## Identifiers -/

def number (n : ℕ) : UString := (Nat.toDigits 10 n).map ch

/-- An origin with its quirk, and its encoded host once it has been asked for. -/
structure DatabaseOrigin extends SecurityOrigin where
  m_needsDatabaseIdentifierQuirkForFiles : Bool
  m_encodedHost : UString
  cached : m_encodedHost = [] ∨ encodeForFileName host = some m_encodedHost

namespace DatabaseOrigin

/-- The encoded host, and the origin that keeps it. -/
def encodedHost (origin : DatabaseOrigin) : Option (UString × DatabaseOrigin) :=
  if origin.m_encodedHost.isEmpty then
    match h : encodeForFileName origin.host with
    | none => none
    | some encoded => some (encoded, { origin with m_encodedHost := encoded, cached := .inr h })
  else some (origin.m_encodedHost, origin)

def databaseIdentifier (origin : DatabaseOrigin) : Option (UString × DatabaseOrigin) :=
  if origin.m_needsDatabaseIdentifierQuirkForFiles then some ("file__0".toList.map ch, origin)
  else origin.encodedHost.map fun (encoded, next) =>
    (origin.protocol ++ [ch '_'] ++ encoded ++ [ch '_'] ++ number origin.port.toNat, next)

end DatabaseOrigin

/-! ## What is written -/

def escaped (c : UChar) : UString :=
  if shouldEscapeUChar c then [ch '%', hexDigit (c.toNat / 16), hexDigit (c.toNat % 16)] else [c]

/-- The encoding needs no more room than there is. -/
def Fits (inputStr : UString) : Prop :=
  inputStr.length + 2 * inputStr.countP shouldEscapeUChar ≤ (inputStr.length * 3 + 1) % 2 ^ 32

variable {str : UString} {c d : UChar}

theorem length_escaped (str : UString) :
    (str.flatMap escaped).length = str.length + 2 * str.countP shouldEscapeUChar := by
  induction str with
  | nil => rfl
  | cons c str ih =>
    rw [flatMap_cons, length_append, countP_cons, escaped]
    split <;> simp only [length_cons, length_nil] <;> omega

theorem encodeUChar_eq (bufferSize : ℕ) (buffer : UString) (c : UChar) :
    encodeUChar bufferSize buffer c = if (buffer ++ escaped c).length ≤ bufferSize then
      some (buffer ++ escaped c) else none := by
  rw [encodeUChar, escaped]
  split
  · simp only [placeByteAsHex, place, Option.bind_eq_bind]
    by_cases h1 : buffer.length < bufferSize
    · rw [if_pos h1, Option.bind_some]
      by_cases h2 : (buffer ++ [ch '%']).length < bufferSize
      · rw [if_pos h2]
        simp [Nat.succ_le_iff]
      · rw [if_neg h2, if_neg (by simp at h2 ⊢; omega)]
        rfl
    · rw [if_neg h1, if_neg (by simp; omega)]
      rfl
  · simp [place, Nat.succ_le_iff]

theorem foldlM_encodeUChar (bufferSize : ℕ) (str buffer : UString)
    (h : buffer.length ≤ bufferSize) :
    str.foldlM (encodeUChar bufferSize) buffer =
      if (buffer ++ str.flatMap escaped).length ≤ bufferSize then
        some (buffer ++ str.flatMap escaped) else none := by
  induction str generalizing buffer with
  | nil =>
    rw [flatMap_nil, append_nil, if_pos h]
    rfl
  | cons c str ih =>
    rw [foldlM_cons, encodeUChar_eq, flatMap_cons, ← append_assoc]
    by_cases hroom : (buffer ++ escaped c).length ≤ bufferSize
    · rw [if_pos hroom]
      exact ih _ hroom
    · rw [if_neg hroom, if_neg]
      · rfl
      · rw [length_append]
        omega

theorem encodeForFileName_eq (inputStr : UString) :
    (encodeForFileName inputStr = some (inputStr.flatMap escaped) ∧ Fits inputStr) ∨
      encodeForFileName inputStr = none ∧ ¬Fits inputStr := by
  rw [encodeForFileName, foldlM_encodeUChar _ _ _ (Nat.zero_le _), nil_append, length_escaped]
  split
  · exact .inl ⟨rfl, ‹_›⟩
  · exact .inr ⟨rfl, ‹_›⟩

/-! ## What the identifiers tell -/

theorem hexDigit_inj : ∀ m < 16, ∀ n < 16, hexDigit m = hexDigit n → m = n := by decide

theorem toNat_lt_of_shouldEscapeUChar (h : shouldEscapeUChar c = true) : c.toNat < 128 := by
  rw [shouldEscapeUChar] at h
  split at h
  · cases h
  · rename_i hle
    exact Nat.lt_succ_of_le (UInt16.le_iff_toNat_le.mp (UInt16.not_lt.mp hle))

/-- The percent sign is escaped itself. -/
theorem shouldEscapeUChar_percent : shouldEscapeUChar (ch '%') = true := by decide

/-- What the hexadecimal digits of an escaped character are, is not escaped. -/
theorem shouldEscapeUChar_hexDigit : ∀ n < 16, shouldEscapeUChar (hexDigit n) = false := by decide

theorem eq_percent_of_mem (h : c ∈ str.flatMap escaped) (hc : shouldEscapeUChar c = true) :
    c = ch '%' := by
  obtain ⟨d, -, hd⟩ := mem_flatMap.mp h
  rw [escaped] at hd
  split at hd
  · have hlt := toNat_lt_of_shouldEscapeUChar ‹_›
    rcases mem_cons.mp hd with rfl | hd
    · rfl
    · obtain ⟨n, hn, rfl⟩ : ∃ n < 16, c = hexDigit n := by
        rcases mem_cons.mp hd with rfl | hd
        · exact ⟨_, by omega, rfl⟩
        · exact ⟨_, by omega, mem_singleton.mp hd⟩
      rw [shouldEscapeUChar_hexDigit n hn] at hc
      cases hc
  · rw [mem_singleton.mp hd] at hc
    contradiction

theorem flatMap_escaped_injective :
    Function.Injective fun str : UString => str.flatMap escaped := by
  intro str
  induction str with
  | nil =>
    intro other heq
    cases other with
    | nil => rfl
    | cons d other =>
      simp only [flatMap_cons, escaped] at heq
      split at heq <;> cases heq
  | cons c str ih =>
    intro other heq
    cases other with
    | nil =>
      simp only [flatMap_cons, escaped] at heq
      split at heq <;> cases heq
    | cons d other =>
      simp only [flatMap_cons, escaped] at heq
      split at heq
      · rename_i hc
        split at heq
        · rename_i hd
          have hlt := toNat_lt_of_shouldEscapeUChar hc
          have hlt' := toNat_lt_of_shouldEscapeUChar hd
          simp only [cons_append, cons.injEq, true_and] at heq
          have hhigh := hexDigit_inj _ (by omega) _ (by omega) heq.1
          have hlow := hexDigit_inj _ (by omega) _ (by omega) heq.2.1
          rw [ih heq.2.2, UInt16.toNat_inj.mp (show c.toNat = d.toNat by omega)]
        · rename_i hd
          cases (List.cons.inj heq).1
          exact absurd shouldEscapeUChar_percent hd
      · rename_i hc
        split at heq
        · cases (List.cons.inj heq).1
          exact absurd shouldEscapeUChar_percent hc
        · rw [(List.cons.inj heq).1, ih (List.cons.inj heq).2]

theorem toNat_le_of_mem_toDigits {c : Char} (h : c ∈ Nat.toDigits 10 n) : c.toNat ≤ 57 := by
  have hdigit := Nat.isDigit_of_mem_toDigits (by decide) le_rfl h
  rw [Char.isDigit, Bool.and_eq_true] at hdigit
  exact of_decide_eq_true hdigit.2

theorem number_injective : Function.Injective number := by
  have hback : ∀ n, (number n).map (fun c => Char.ofNat c.toNat) = Nat.toDigits 10 n := by
    intro n
    rw [number, map_map]
    refine (map_congr_left fun c hc => ?_).trans (map_id _)
    have hlt : c.toNat < 65536 := Nat.lt_of_le_of_lt (toNat_le_of_mem_toDigits hc) (by decide)
    simp [ch, Nat.mod_eq_of_lt hlt]
  intro m n heq
  rw [← @Nat.ofDigitChars_ten_toDigits m, ← @Nat.ofDigitChars_ten_toDigits n, ← hback m, ← hback n,
    heq]

theorem separator_not_mem_number (n : ℕ) : ch '_' ∉ number n := by
  intro hmem
  obtain ⟨c, hc, heq⟩ := mem_map.mp hmem
  have hle := toNat_le_of_mem_toDigits hc
  have hnat : c.toNat % 2 ^ 16 = 95 := congrArg UInt16.toNat heq
  omega

/-- A text is split where a character stands first. -/
theorem append_cons_inj (h : a ∉ front)
    (h' : a ∉ front') (heq : front ++ a :: rest = front' ++ a :: rest') :
    front = front' ∧ rest = rest' := by
  induction front generalizing front' with
  | nil =>
    cases front' with
    | nil => exact ⟨rfl, (List.cons.inj heq).2⟩
    | cons b front' => exact absurd ((List.cons.inj heq).1 ▸ mem_cons_self) h'
  | cons b front ih =>
    cases front' with
    | nil => exact absurd ((List.cons.inj heq).1 ▸ mem_cons_self) h
    | cons b' front' =>
      obtain ⟨rfl, hrest⟩ := ih (not_mem_of_not_mem_cons h) (not_mem_of_not_mem_cons h')
        (List.cons.inj heq).2
      exact ⟨congrArg (· :: front) (List.cons.inj heq).1, hrest⟩

/-- The characters of a scheme are no separator. -/
theorem separator_not_mem_scheme (h : ∀ c ∈ str, isSchemeContinuationCharacter c = true) :
    ch '_' ∉ str := fun hmem => absurd (h _ hmem) (by decide)

namespace DatabaseOrigin

variable {origin next : DatabaseOrigin} {encoded identifier : UString}

theorem encodedHost_eq (h : origin.encodedHost = some (encoded, next)) :
    encoded = origin.host.flatMap escaped := by
  have hencode : ∀ text, encodeForFileName origin.host = some text →
      text = origin.host.flatMap escaped := by
    intro text htext
    rcases encodeForFileName_eq origin.host with ⟨hsome, -⟩ | ⟨hnone, -⟩
    · exact Option.some_inj.mp (htext.symm.trans hsome)
    · exact absurd (htext.symm.trans hnone) nofun
  rw [encodedHost] at h
  split at h
  · split at h
    · cases h
    · cases h
      exact hencode _ ‹_›
  · rename_i hcached
    cases h
    exact hencode _ (origin.cached.resolve_left fun hnil => hcached (isEmpty_iff.mpr hnil))

/-- What is asked of the identifiers of two origins without the quirk. -/
structure Identifies (origin other : DatabaseOrigin) : Prop where
  encodes : ∀ o ∈ [origin, other], ∃ encoded, encodeForFileName o.host = some encoded ∧
    ∀ c ∈ encoded, shouldEscapeUChar c = true → c = ch '%'
  injective : ∀ identifier next next', origin.databaseIdentifier = some (identifier, next) →
    other.databaseIdentifier = some (identifier, next') →
      origin.protocol = other.protocol ∧ origin.host = other.host ∧ origin.port = other.port

theorem databaseIdentifier_injective
    (hquirk : ∀ o ∈ [origin, other], o.m_needsDatabaseIdentifierQuirkForFiles = false)
    (hscheme : ∀ o ∈ [origin, other], ∀ c ∈ o.protocol, isSchemeContinuationCharacter c = true)
    (h : origin.databaseIdentifier = some (identifier, next))
    (h' : other.databaseIdentifier = some (identifier, next')) :
    origin.protocol = other.protocol ∧ origin.host = other.host ∧ origin.port = other.port := by
  have hmem : other ∈ [origin, other] := mem_cons_of_mem _ mem_cons_self
  rw [databaseIdentifier, hquirk _ mem_cons_self] at h
  rw [databaseIdentifier, hquirk _ hmem] at h'
  obtain ⟨⟨encoded, _⟩, hencoded, heq⟩ := Option.map_eq_some_iff.mp h
  obtain ⟨⟨encoded', _⟩, hencoded', heq'⟩ := Option.map_eq_some_iff.mp h'
  simp only [Prod.mk.injEq] at heq heq'
  have hsame := heq.1.trans heq'.1.symm
  simp only [append_assoc, cons_append] at hsame
  obtain ⟨hprotocol, hsame⟩ := append_cons_inj
    (separator_not_mem_scheme (hscheme _ mem_cons_self))
    (separator_not_mem_scheme (hscheme _ hmem)) hsame
  -- the port is behind the last separator
  have hreverse := congrArg reverse hsame
  simp only [reverse_append, reverse_cons, append_assoc, cons_append, nil_append] at hreverse
  obtain ⟨hport, hhost⟩ := append_cons_inj
    (fun hmem => separator_not_mem_number _ (mem_reverse.mp hmem))
    (fun hmem => separator_not_mem_number _ (mem_reverse.mp hmem)) hreverse
  rw [reverse_inj, encodedHost_eq hencoded, encodedHost_eq hencoded'] at hhost
  exact ⟨hprotocol, flatMap_escaped_injective hhost,
    UInt16.toNat_inj.mp (number_injective (reverse_inj.mp hport))⟩

/-- Identifiers tell origins apart, as long as the encoded hosts fit. -/
theorem identifies_iff (origin other : DatabaseOrigin)
    (hquirk : ∀ o ∈ [origin, other], o.m_needsDatabaseIdentifierQuirkForFiles = false)
    (hscheme : ∀ o ∈ [origin, other], ∀ c ∈ o.protocol, isSchemeContinuationCharacter c = true) :
    Identifies origin other ↔ ∀ o ∈ [origin, other], Fits o.host := by
  constructor
  · intro h o ho
    obtain ⟨encoded, hencoded, -⟩ := h.encodes o ho
    rcases encodeForFileName_eq o.host with ⟨-, hfits⟩ | ⟨hnone, -⟩
    · exact hfits
    · exact absurd (hencoded.symm.trans hnone) nofun
  · intro h
    refine ⟨fun o ho => ?_, fun _ _ _ => databaseIdentifier_injective hquirk hscheme⟩
    rcases encodeForFileName_eq o.host with ⟨hencoded, -⟩ | ⟨-, hnot⟩
    · exact ⟨_, hencoded, fun _ => eq_percent_of_mem⟩
    · exact absurd (h o ho) hnot

/-- The origin of an `http` URL. -/
def http (host : UString) : DatabaseOrigin :=
  ⟨⟨"http".toList.map ch, host, 0⟩, false, [], .inl rfl⟩

theorem identifies_http : Identifies (http [ch 'a', ch '_']) (http [ch '%']) :=
  (identifies_iff (http [ch 'a', ch '_']) (http [ch '%']) (by decide)
    (forall_mem_cons.mpr ⟨all_eq_true.mp rfl, forall_mem_singleton.mpr (all_eq_true.mp rfl)⟩)).mpr
    (by
      unfold Fits
      decide)

/-- For this string `encodeForFileName` takes a buffer of 2 ^ 32 characters, which are none. -/
theorem not_identifies_replicate (hn : n = 1431655765) :
    ¬Identifies (http (replicate n (ch 'a'))) (http (replicate n (ch 'a'))) := by
  intro h
  obtain ⟨encoded, hencoded, -⟩ := h.encodes _ mem_cons_self
  rcases encodeForFileName_eq (http (replicate n (ch 'a'))).host with ⟨-, hfits⟩ | ⟨hnone, -⟩
  · have hsize : (n * 3 + 1) % 2 ^ 32 = 0 := by omega
    rw [Fits, http, length_replicate, hsize] at hfits
    omega
  · exact absurd (hencoded.symm.trans hnone) nofun

theorem not_identifies_long : ¬Identifies (http (replicate 1431655765 (ch 'a')))
    (http (replicate 1431655765 (ch 'a'))) :=
  not_identifies_replicate rfl

end DatabaseOrigin

end WebKit.Page
