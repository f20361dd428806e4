import WebKit.Page.SourceExpressions

/-!
# What source expressions allow

The meaning of source expressions, and the URLs that the list of their sources matches.  The parser
represents a host `*` by an empty host, which is also how it represents an expression without a host,
and a port by a number that is 0 where there is none.

* `SourceExpression.Allows`: what an expression allows.
* `SourceExpression.AllowsMore`: what the code allows that the expression does not.
* `matchesURL_parse`: the list of the parser allows both.
-/

namespace WebKit.Page

open WTF
open List

/-! ## The meaning -/

section Meaning

variable (foldCase : UChar → UChar) (origin : SecurityOrigin) (url : KURL)

/-- The port of a URL or an origin, if there is one. -/
def portOf (port : UInt16) : Option ℕ := if port = 0 then none else some port.toNat

/-- A port, and where there is none the default port of the scheme. -/
def effectivePort (scheme : UString) (port : Option ℕ) : Option ℕ :=
  port.orElse fun _ => findDefaultPort foldCase scheme

/-- The ports are equal, the default port for an absent one. -/
def PortsMatch (scheme : UString) (port : Option ℕ) : Prop :=
  effectivePort foldCase scheme (portOf url.port) = effectivePort foldCase scheme port

instance (scheme : UString) (port : Option ℕ) : Decidable (PortsMatch foldCase url scheme port) :=
  inferInstanceAs (Decidable (_ = _))

def PortPattern.Allows (scheme : UString) : Option PortPattern → Prop
  | none => PortsMatch foldCase url scheme none
  | some any => True
  | some (number digits) => PortsMatch foldCase url scheme (some digits.value)

/-- A host that ends with a dot and a name. -/
def IsSubdomain (name : UString) : Prop :=
  ∃ label suffix, url.host = label ++ suffix ∧
    equalIgnoringCase foldCase suffix (ch '.' :: name) = true

def HostPattern.Allows : HostPattern → Prop
  | any => True
  | name false host => equalIgnoringCase foldCase url.host host.text = true
  | name true host => IsSubdomain foldCase url host.text

def SchemesMatch (scheme : UString) : Prop := equalIgnoringCase foldCase url.protocol scheme = true

instance (scheme : UString) : Decidable (SchemesMatch foldCase url scheme) :=
  inferInstanceAs (Decidable (_ = true))

/-- What an expression allows.  The expression `*` allows everything. -/
def SourceExpression.Allows : SourceExpression → Prop
  | .scheme name => SchemesMatch foldCase url name.text
  | .host none .any none => True
  | .host schemeName pattern port =>
    SchemesMatch foldCase url (schemeOf origin schemeName) ∧ pattern.Allows foldCase url ∧
      PortPattern.Allows foldCase url (schemeOf origin schemeName) port
  | .self _ =>
    SchemesMatch foldCase url origin.protocol ∧
      equalIgnoringCase foldCase url.host origin.host = true ∧
      PortsMatch foldCase url origin.protocol (portOf origin.port)

/-! ## What the code allows besides -/

/-- A port number that is read as an absent port or that is the default port modulo `2 ^ 16`. -/
def PortPattern.AllowsMore (scheme : UString) : Option PortPattern → Prop
  | some (number digits) =>
    digits.value = 0 ∧ PortsMatch foldCase url scheme none ∨
      2 ^ 16 ≤ digits.value ∧ digits.value < 2 ^ 31 ∧ url.port = 0 ∧ scheme ≠ [] ∧
        digits.value % 2 ^ 16 = (findDefaultPort foldCase scheme).getD 0
  | _ => False

/-- A number that fits into an `int`. -/
def PortPattern.Fits : Option PortPattern → Prop
  | some (number digits) => digits.value < 2 ^ 31
  | _ => True

/-- What the code allows and the expression does not: any port with a host `*`, any host and port for
an origin without a host, the domain itself for its subdomains, and a port that is misread. -/
def SourceExpression.AllowsMore : SourceExpression → Prop
  | .scheme _ => False
  | .host none .any none => False
  | .host schemeName .any port =>
    SchemesMatch foldCase url (schemeOf origin schemeName) ∧ PortPattern.Fits port ∧
      ¬PortPattern.Allows foldCase url (schemeOf origin schemeName) port
  | .host schemeName (.name wildcard name) port =>
    SchemesMatch foldCase url (schemeOf origin schemeName) ∧
      (equalIgnoringCase foldCase url.host name.text = true ∨
        wildcard = true ∧ IsSubdomain foldCase url name.text) ∧
      (PortPattern.Allows foldCase url (schemeOf origin schemeName) port ∨
        PortPattern.AllowsMore foldCase url (schemeOf origin schemeName) port) ∧
      ¬((HostPattern.name wildcard name).Allows foldCase url ∧
        PortPattern.Allows foldCase url (schemeOf origin schemeName) port)
  | .self _ =>
    SchemesMatch foldCase url origin.protocol ∧ origin.host = [] ∧
      ¬(equalIgnoringCase foldCase url.host origin.host = true ∧
        PortsMatch foldCase url origin.protocol (portOf origin.port))

end Meaning

/-! ## What a source matches -/

section Matching

variable {foldCase : UChar → UChar} {origin : SecurityOrigin} {url : KURL}
variable {scheme : UString} {port : Option PortPattern} {schemeName : Option SchemeName}

/-- The default ports are neither 0 nor too large. -/
theorem findDefaultPort_bounds {port : ℕ} (h : findDefaultPort foldCase scheme = some port) :
    0 < port ∧ port < 2 ^ 16 := by
  obtain ⟨entry, hentry, rfl⟩ := Option.map_eq_some_iff.mp h
  have hall : ∀ entry ∈ defaultPorts, 0 < entry.2 ∧ entry.2 < 2 ^ 16 := by decide
  exact hall entry (mem_of_find?_eq_some hentry)

theorem isDefaultPortForProtocol_iff (port : UInt16) (scheme : UString) :
    isDefaultPortForProtocol foldCase port scheme = true ↔
      scheme ≠ [] ∧ (findDefaultPort foldCase scheme).getD 0 = port.toNat := by
  simp [isDefaultPortForProtocol]

/-- A port other than 0 is the default port only where there is one. -/
theorem getD_findDefaultPort_iff {port : ℕ} (hport : port ≠ 0) :
    scheme ≠ [] ∧ (findDefaultPort foldCase scheme).getD 0 = port ↔
      findDefaultPort foldCase scheme = some port := by
  constructor
  · rintro ⟨-, h⟩
    cases hdefault : findDefaultPort foldCase scheme with
    | none =>
      rw [hdefault] at h
      exact absurd h.symm hport
    | some default => rw [← h, hdefault, Option.getD_some]
  · intro h
    refine ⟨?_, by rw [h, Option.getD_some]⟩
    rintro rfl
    cases h

theorem portOf_of_ne_zero {port : UInt16} (h : port ≠ 0) : portOf port = some port.toNat := if_neg h

theorem toNat_ne_zero {port : UInt16} (h : port ≠ 0) : port.toNat ≠ 0 :=
  fun heq => h (UInt16.toNat_inj.mp heq)

/-- The comparison with an absent port. -/
theorem portMatches_absent (scheme host : UString) (wildcard : Bool) :
    (CSPSource.mk scheme host 0 wildcard false).portMatches foldCase url = true ↔
      PortsMatch foldCase url scheme none := by
  simp only [CSPSource.portMatches, PortsMatch, Bool.false_eq_true, if_false]
  by_cases hport : url.port = 0
  · rw [hport, if_pos (UInt16.toNat_zero), eq_self, portOf, if_pos rfl, eq_self]
  · rw [if_neg (toNat_ne_zero hport), if_neg hport, if_true, isDefaultPortForProtocol_iff,
      getD_findDefaultPort_iff (toNat_ne_zero hport), portOf_of_ne_zero hport]
    exact eq_comm

/-- The comparison with a port: the default port is compared modulo `2 ^ 16`. -/
theorem portMatches_number (scheme host : UString) {port : ℕ} (hport : port ≠ 0) (wildcard : Bool) :
    (CSPSource.mk scheme host port wildcard false).portMatches foldCase url = true ↔
      PortsMatch foldCase url scheme (some port) ∨ 2 ^ 16 ≤ port ∧ url.port = 0 ∧ scheme ≠ [] ∧
          port % 2 ^ 16 = (findDefaultPort foldCase scheme).getD 0 := by
  have heffective : effectivePort foldCase scheme (some port) = some port := rfl
  simp only [CSPSource.portMatches, PortsMatch, Bool.false_eq_true, if_false, heffective]
  by_cases hurl : url.port = 0
  · have hdefault : effectivePort foldCase scheme (portOf url.port) =
        findDefaultPort foldCase scheme := by rw [hurl]; rfl
    have hzero : url.port.toNat ≠ port := by rw [hurl]; exact hport.symm
    have hmod : (UInt16.ofNat port).toNat = port % 2 ^ 16 := UInt16.toNat_ofNat'
    rw [if_neg hzero, if_pos hurl, isDefaultPortForProtocol_iff, hmod, hdefault]
    by_cases hle : 2 ^ 16 ≤ port
    · have hnot : findDefaultPort foldCase scheme ≠ some port :=
        fun h => absurd (findDefaultPort_bounds h).2 (not_lt.mpr hle)
      rw [or_iff_right hnot, and_iff_right hle, and_iff_right hurl, eq_comm (a := _ % _)]
    · rw [Nat.mod_eq_of_lt (not_le.mp hle), getD_findDefaultPort_iff hport,
        or_iff_left fun h => hle h.1]
  · rw [if_neg hport, portOf_of_ne_zero hurl]
    have heq : effectivePort foldCase scheme (some url.port.toNat) = some url.port.toNat := rfl
    rw [heq]
    simp [hurl]

/-- A port that is allowed fits. -/
theorem PortPattern.Allows.fits
    (h : PortPattern.Allows foldCase url scheme port) : PortPattern.Fits port := by
  match port, h with
  | none, _ => trivial
  | some .any, _ => trivial
  | some (.number digits), h =>
    have hvalue : effectivePort foldCase scheme (portOf url.port) = some digits.value := h
    by_cases hurl : url.port = 0
    · rw [hurl] at hvalue
      exact (findDefaultPort_bounds hvalue).2.trans (by decide)
    · rw [portOf_of_ne_zero hurl] at hvalue
      have heq : url.port.toNat = digits.value := Option.some_inj.mp hvalue
      have hlt := url.port.toNat_lt
      rw [heq] at hlt
      exact hlt.trans (by decide)

theorem PortPattern.AllowsMore.fits
    (h : PortPattern.AllowsMore foldCase url scheme port) : PortPattern.Fits port := by
  match port, h with
  | some (.number digits), h =>
    rcases h with ⟨hzero, -⟩ | ⟨-, hlt, -⟩
    · exact Nat.lt_of_le_of_lt hzero.le (by decide)
    · exact hlt

/-- A port is parsed if it fits. -/
theorem fits_iff : PortPattern.Fits port ↔ ∃ parsed, parsedPort port = some parsed := by
  obtain _ | _ | digits := port
  · exact ⟨fun _ => ⟨_, rfl⟩, fun _ => trivial⟩
  · exact ⟨fun _ => ⟨_, rfl⟩, fun _ => trivial⟩
  · rw [parsedPort, PortPattern.parsed]
    split
    · rename_i hlt
      exact ⟨fun _ => ⟨_, rfl⟩, fun _ => hlt⟩
    · rename_i hlt
      exact ⟨fun h => absurd h hlt, by simp⟩

/-- No port is 0. -/
theorem not_portsMatch_zero (scheme : UString) : ¬PortsMatch foldCase url scheme (some 0) := by
  intro h
  have hzero : effectivePort foldCase scheme (portOf url.port) = some 0 := h
  by_cases hurl : url.port = 0
  · rw [hurl] at hzero
    exact absurd (findDefaultPort_bounds hzero).1 (Nat.lt_irrefl 0)
  · rw [portOf_of_ne_zero hurl] at hzero
    exact toNat_ne_zero hurl (Option.some_inj.mp hzero)

variable {host : UString} {wildcard : Bool} {pattern : HostPattern}

/-- What the comparison of ports allows. -/
theorem portMatches_parsedPort {parsed : ℕ × Bool}
    (h : parsedPort port = some parsed) :
    (CSPSource.mk scheme host parsed.1 wildcard parsed.2).portMatches foldCase url = true ↔
      PortPattern.Allows foldCase url scheme port ∨
        PortPattern.AllowsMore foldCase url scheme port := by
  match port, h with
  | none, h =>
    obtain rfl := Option.some_inj.mp h
    rw [portMatches_absent]
    exact (or_iff_left id).symm
  | some .any, h =>
    obtain rfl := Option.some_inj.mp h
    simp [CSPSource.portMatches, PortPattern.Allows]
  | some (.number digits), h =>
    rw [parsedPort, PortPattern.parsed] at h
    split at h
    · rename_i hlt
      obtain rfl := Option.some_inj.mp h
      rw [PortPattern.Allows, PortPattern.AllowsMore]
      by_cases hzero : digits.value = 0
      · have hle : ¬2 ^ 16 ≤ digits.value := by rw [hzero]; decide
        rw [hzero, portMatches_absent, or_iff_right (not_portsMatch_zero scheme)]
        rw [hzero] at hle
        rw [or_iff_left fun h => hle h.1, and_iff_right rfl]
      · rw [portMatches_number scheme host hzero, and_iff_right hlt,
          or_iff_right (a := digits.value = 0 ∧ _) fun h => hzero h.1]
    · cases h

theorem HostName.text_ne_nil (name : HostName) : name.text ≠ [] := by
  obtain ⟨c, rest, hrest, -⟩ := name.exists_cons
  rw [hrest]
  exact cons_ne_nil c rest

/-- The end of a host is compared with a dot and the name. -/
theorem endsWithIgnoringCase_iff (name : UString) :
    endsWithIgnoringCase foldCase url.host (ch '.' :: name) = true ↔
      IsSubdomain foldCase url name := by
  rw [endsWithIgnoringCase, Bool.and_eq_true, decide_eq_true_iff]
  constructor
  · rintro ⟨-, h⟩
    exact ⟨_, _, (take_append_drop _ url.host).symm, h⟩
  · rintro ⟨label, suffix, heq, h⟩
    have hlength : suffix.length = (ch '.' :: name).length := by
      simpa using congrArg List.length (beq_iff_eq.mp h)
    rw [heq, length_append, hlength]
    refine ⟨Nat.le_add_left _ _, ?_⟩
    rw [Nat.add_sub_cancel, drop_left]
    exact h

/-- The host of a source is compared with the name, whether or not it has a wildcard. -/
theorem hostMatches_iff (scheme : UString) (name : UString) (port : ℕ) (wildcard anyPort : Bool) :
    (CSPSource.mk scheme name port wildcard anyPort).hostMatches foldCase url = true ↔
      equalIgnoringCase foldCase url.host name = true ∨
        wildcard = true ∧ IsSubdomain foldCase url name := by
  rw [CSPSource.hostMatches, Bool.or_eq_true, Bool.and_eq_true, endsWithIgnoringCase_iff]

/-- A source without a host is a scheme. -/
theorem matchesURL_schemeOnly (scheme : UString) (port : ℕ) (wildcard anyPort : Bool) :
    (CSPSource.mk scheme [] port wildcard anyPort).matchesURL foldCase url = true ↔
      SchemesMatch foldCase url scheme := by
  rw [CSPSource.matchesURL, CSPSource.schemeMatches, SchemesMatch]
  cases equalIgnoringCase foldCase url.protocol scheme with
  | _ => exact Iff.rfl

theorem matchesURL_host (hhost : host ≠ []) (port : ℕ)
    (wildcard anyPort : Bool) :
    (CSPSource.mk scheme host port wildcard anyPort).matchesURL foldCase url = true ↔
      SchemesMatch foldCase url scheme ∧
        (CSPSource.mk scheme host port wildcard anyPort).hostMatches foldCase url = true ∧
        (CSPSource.mk scheme host port wildcard anyPort).portMatches foldCase url = true := by
  have hisSchemeOnly : (CSPSource.mk scheme host port wildcard anyPort).isSchemeOnly = false := by
    rw [CSPSource.isSchemeOnly, isEmpty_eq_false_iff]
    exact hhost
  rw [CSPSource.matchesURL, CSPSource.schemeMatches, SchemesMatch, hisSchemeOnly]
  cases equalIgnoringCase foldCase url.protocol scheme with
  | _ => simp

/-- What an expression adds to a list allows the URL. -/
def SourceExpression.IsMatched (foldCase : UChar → UChar) (origin : SecurityOrigin) (url : KURL)
    (source : SourceExpression) : Prop :=
  source.isStar = true ∨
    ∃ added, source.added origin = some added ∧ added.matchesURL foldCase url = true

/-- What is asked of the hosts is the same for both readings, or the code asks for less. -/
theorem HostPattern.Allows.name {name : HostName}
    (h : (HostPattern.name wildcard name).Allows foldCase url) :
    equalIgnoringCase foldCase url.host name.text = true ∨
      wildcard = true ∧ IsSubdomain foldCase url name.text := by
  cases wildcard with
  | true => exact .inr ⟨rfl, h⟩
  | false => exact .inl h

theorem isMatched_self (keyword : Keyword "'self'") :
    (SourceExpression.self keyword).IsMatched foldCase origin url ↔
      (SourceExpression.self keyword).Allows foldCase origin url ∨
        (SourceExpression.self keyword).AllowsMore foldCase origin url := by
  let added : CSPSource := ⟨origin.protocol, origin.host, origin.port.toNat, false, false⟩
  have hport : added.portMatches foldCase url = true ↔
      PortsMatch foldCase url origin.protocol (portOf origin.port) := by
    by_cases hzero : origin.port = 0
    · have hadded : added = ⟨origin.protocol, origin.host, 0, false, false⟩ := by
        simp only [added, hzero]
        rfl
      rw [hadded, portMatches_absent, hzero]
      rfl
    · have hlt : ¬2 ^ 16 ≤ origin.port.toNat := not_le.mpr origin.port.toNat_lt
      rw [portOf_of_ne_zero hzero, portMatches_number _ _ (toNat_ne_zero hzero),
        or_iff_left fun h => hlt h.1]
  have hmatched : (SourceExpression.self keyword).IsMatched foldCase origin url ↔
      added.matchesURL foldCase url = true := by
    constructor
    · rintro (h | ⟨source, hsource, h⟩)
      · cases h
      · obtain rfl := Option.some_inj.mp hsource
        exact h
    · exact fun h => .inr ⟨added, rfl, h⟩
  rw [hmatched, SourceExpression.Allows, SourceExpression.AllowsMore]
  by_cases hhost : origin.host = []
  · have honly := @matchesURL_schemeOnly foldCase url origin.protocol origin.port.toNat false false
    have hadded : added = ⟨origin.protocol, [], origin.port.toNat, false, false⟩ := by
      rw [← hhost]
    rw [hadded]
    tauto
  · rw [matchesURL_host hhost, hport, hostMatches_iff]
    simp [hhost]

/-- What is asked of a host source other than `*`. -/
theorem allows_host
    (hsource : (SourceExpression.host schemeName pattern port).isStar = false) :
    (SourceExpression.host schemeName pattern port).Allows foldCase origin url ↔
      SchemesMatch foldCase url (schemeOf origin schemeName) ∧ pattern.Allows foldCase url ∧
        PortPattern.Allows foldCase url (schemeOf origin schemeName) port := by
  unfold SourceExpression.Allows
  split
  · contradiction
  · rename_i heq
    obtain ⟨rfl, rfl, rfl⟩ := SourceExpression.host.inj heq
    cases hsource
  · rename_i heq
    obtain ⟨rfl, rfl, rfl⟩ := SourceExpression.host.inj heq
    exact Iff.rfl
  · contradiction

theorem allowsMore_any (hsource : (SourceExpression.host schemeName .any port).isStar = false) :
    (SourceExpression.host schemeName .any port).AllowsMore foldCase origin url ↔
      SchemesMatch foldCase url (schemeOf origin schemeName) ∧ PortPattern.Fits port ∧
        ¬PortPattern.Allows foldCase url (schemeOf origin schemeName) port := by
  cases schemeName with
  | some name => exact Iff.rfl
  | none =>
    cases port with
    | some port => exact Iff.rfl
    | none => cases hsource

/-- A host source other than `*` adds one source, if its port fits. -/
theorem isMatched_of_not_star
    (hsource : (SourceExpression.host schemeName pattern port).isStar = false) :
    (SourceExpression.host schemeName pattern port).IsMatched foldCase origin url ↔
      ∃ parsed, parsedPort port = some parsed ∧
        (CSPSource.mk (schemeOf origin schemeName) pattern.parsed.1 parsed.1 pattern.parsed.2
          parsed.2).matchesURL foldCase url = true := by
  rw [SourceExpression.IsMatched, hsource, added_host hsource]
  constructor
  · rintro (h | ⟨added, hadded, h⟩)
    · cases h
    · obtain ⟨parsed, hparsed, rfl⟩ := Option.map_eq_some_iff.mp hadded
      exact ⟨parsed, hparsed, h⟩
  · rintro ⟨parsed, hparsed, h⟩
    exact .inr ⟨_, Option.map_eq_some_iff.mpr ⟨parsed, hparsed, rfl⟩, h⟩

theorem isMatched_any (hsource : (SourceExpression.host schemeName .any port).isStar = false) :
    (SourceExpression.host schemeName .any port).IsMatched foldCase origin url ↔
      SchemesMatch foldCase url (schemeOf origin schemeName) ∧ PortPattern.Fits port := by
  rw [isMatched_of_not_star hsource, fits_iff]
  constructor
  · rintro ⟨parsed, hparsed, h⟩
    exact ⟨(matchesURL_schemeOnly _ _ _ _).mp h, parsed, hparsed⟩
  · rintro ⟨h, parsed, hparsed⟩
    exact ⟨parsed, hparsed, (matchesURL_schemeOnly _ _ _ _).mpr h⟩

theorem isMatched_name {name : HostName} :
    (SourceExpression.host schemeName (.name wildcard name) port).IsMatched foldCase origin url ↔
      SchemesMatch foldCase url (schemeOf origin schemeName) ∧
        (equalIgnoringCase foldCase url.host name.text = true ∨
          wildcard = true ∧ IsSubdomain foldCase url name.text) ∧
        (PortPattern.Allows foldCase url (schemeOf origin schemeName) port ∨
          PortPattern.AllowsMore foldCase url (schemeOf origin schemeName) port) := by
  rw [isMatched_of_not_star (by cases schemeName <;> rfl)]
  have hsource (parsed : ℕ × Bool) := @matchesURL_host foldCase url (schemeOf origin schemeName)
    name.text name.text_ne_nil parsed.1 wildcard parsed.2
  constructor
  · rintro ⟨parsed, hparsed, h⟩
    obtain ⟨hscheme, hhost, hport⟩ := (hsource parsed).mp h
    exact ⟨hscheme, (hostMatches_iff _ _ _ _ _).mp hhost, (portMatches_parsedPort hparsed).mp hport⟩
  · rintro ⟨hscheme, hhost, hport⟩
    have hfits : PortPattern.Fits port :=
      hport.elim PortPattern.Allows.fits PortPattern.AllowsMore.fits
    obtain ⟨parsed, hparsed⟩ := fits_iff.mp hfits
    exact ⟨parsed, hparsed, (hsource parsed).mpr ⟨hscheme, (hostMatches_iff _ _ _ _ _).mpr hhost,
      (portMatches_parsedPort hparsed).mpr hport⟩⟩

theorem isMatched_host (schemeName : Option SchemeName) (pattern : HostPattern)
    (port : Option PortPattern) :
    (SourceExpression.host schemeName pattern port).IsMatched foldCase origin url ↔
      (SourceExpression.host schemeName pattern port).Allows foldCase origin url ∨
        (SourceExpression.host schemeName pattern port).AllowsMore foldCase origin url := by
  cases pattern with
  | name wildcard name =>
    have hname := @HostPattern.Allows.name foldCase url wildcard name
    rw [isMatched_name, allows_host (by cases schemeName <;> rfl), SourceExpression.AllowsMore]
    tauto
  | any =>
    cases hstar : (SourceExpression.host schemeName .any port).isStar with
    | true =>
      unfold SourceExpression.isStar at hstar
      split at hstar
      · rename_i heq
        obtain ⟨rfl, -, rfl⟩ := SourceExpression.host.inj heq
        exact iff_of_true (.inl rfl) (.inl trivial)
      · cases hstar
    | false =>
      have hfits := @PortPattern.Allows.fits foldCase url (schemeOf origin schemeName) port
      rw [isMatched_any hstar, allows_host hstar, allowsMore_any hstar]
      tauto

/-- The code allows what an expression allows, and what it allows besides. -/
theorem SourceExpression.isMatched_iff (source : SourceExpression) :
    source.IsMatched foldCase origin url ↔
      source.Allows foldCase origin url ∨ source.AllowsMore foldCase origin url := by
  cases source with
  | scheme name =>
    have hmatches := @matchesURL_schemeOnly foldCase url name.text 0 false false
    constructor
    · rintro (h | ⟨added, hadded, h⟩)
      · cases h
      · obtain rfl := Option.some_inj.mp hadded
        exact .inl (hmatches.mp h)
    · rintro (h | h)
      · exact .inr ⟨_, rfl, hmatches.mpr h⟩
      · exact h.elim
  | host schemeName pattern port => exact isMatched_host schemeName pattern port
  | self keyword => exact isMatched_self keyword

section

variable (hfold : FoldsASCII foldCase) {sources : List SourceExpression} {text : UString}
  (h : IsSourceList sources text)
include h hfold

/-- The list that is parsed allows what one of its expressions allows, or allows besides. -/
theorem matchesURL_parse :
    (CSPSourceList.parse foldCase origin text).matchesURL foldCase url = true ↔ ∃ source ∈ sources,
        source.Allows foldCase origin url ∨ source.AllowsMore foldCase origin url := by
  have hmatched : (CSPSourceList.parse foldCase origin text).matchesURL foldCase url = true ↔
      ∃ source ∈ sources, source.IsMatched foldCase origin url := by
    rw [parse_sourceList hfold h, CSPSourceList.matchesURL, CSPSourceList.withSources,
      CSPSourceList.initial, Bool.or_eq_true, Bool.false_or, any_eq_true,
      any_eq_true]
    constructor
    · rintro (⟨source, hsource, hstar⟩ | ⟨added, hadded, hurl⟩)
      · exact ⟨source, hsource, .inl hstar⟩
      · obtain ⟨source, hsource, hadded⟩ := mem_flatMap.mp hadded
        exact ⟨source, hsource, .inr ⟨added, Option.mem_toList.mp hadded, hurl⟩⟩
    · rintro ⟨source, hsource, hstar | ⟨added, hadded, hurl⟩⟩
      · exact .inl ⟨source, hsource, hstar⟩
      · exact .inr ⟨added, mem_flatMap.mpr ⟨source, hsource, Option.mem_toList.mpr hadded⟩, hurl⟩
  rw [hmatched]
  exact exists_congr fun source => and_congr_right fun _ => source.isMatched_iff

end

end Matching

/-! The lists `https: http://a:8080` and `http://*:8080` of a page at `http://h`. -/

def httpScheme : SchemeName := ⟨ch 'h', "ttp".toList.map ch, by decide, forall_mem_of_all (by decide)⟩

def httpsScheme : SchemeName := ⟨ch 'h', "ttps".toList.map ch, by decide, forall_mem_of_all (by decide)⟩

def hostA : HostName := ⟨⟨[ch 'a'], by decide, forall_mem_of_all (by decide)⟩, []⟩

def port8080 : PortPattern :=
  .number ⟨"8080".toList.map ch, by decide, forall_mem_of_all (by decide)⟩

def sourceA8080 : SourceExpression := .host (some httpScheme) (.name false hostA) (some port8080)

def sourceAny8080 : SourceExpression := .host (some httpScheme) .any (some port8080)

def originH : SecurityOrigin := ⟨"http".toList.map ch, [ch 'h'], 0⟩

/-- `http://a` at a port. -/
def urlA (port : UInt16) : KURL := ⟨"http".toList.map ch, [ch 'a'], port⟩

theorem isSourceList_httpsA8080 :
    IsSourceList [.scheme httpsScheme, sourceA8080] ("https: http://a:8080".toList.map ch) :=
  .sources (@IsSources.cons [] _ _ _ (by decide)
    (@IsSources.cons [ch ' '] _ _ _ (by decide) (@IsSources.nil [] (by decide)) (by decide))
    (by decide))

theorem isSourceList_any8080 : IsSourceList [sourceAny8080] ("http://*:8080".toList.map ch) :=
  .sources (@IsSources.cons [] _ _ _ (by decide) (@IsSources.nil [] (by decide)) (by decide))

end WebKit.Page
