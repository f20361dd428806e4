import WebKit.Page.SourceExpressions

/-!
# The grammar of host sources

What `parseSource` accepts as a host source, against the grammar in its comments.  The loop over the
labels of a host may stop behind a dot, so that a host may end in one, and `*.` is a host.

* `followsGrammar_iff`: the parser follows the grammar but for the hosts that end in a dot.
-/

namespace WebKit.Page

open WTF List

/-! ## The hosts -/

def dottedText (labels : List HostLabel) : UString :=
  labels.flatMap fun label => label.text ++ [ch '.']

/-- `[ "*." ] *( 1*host-char "." )`, with a dot at the end. -/
structure DottedHost where
  wildcard : Bool
  labels : List HostLabel
  ne_nil : wildcard = true ∨ labels ≠ []

def DottedHost.text (host : DottedHost) : UString :=
  (if host.wildcard then [ch '*', ch '.'] else []) ++ dottedText host.labels

variable (host : UString) (parsedHost : UString × Bool)

def GrammarHost : Prop :=
  ∃ pattern : HostPattern, host = pattern.text ∧ parsedHost = pattern.parsed

def DotHost : Prop :=
  ∃ dotted : DottedHost, host = dotted.text ∧
    parsedHost = (dottedText dotted.labels, dotted.wildcard)

def LooseHost : Prop :=
  GrammarHost host parsedHost ∨ DotHost host parsedHost

theorem dottedText_cons (label : HostLabel) (labels : List HostLabel) :
    dottedText (label :: labels) = label.text ++ ch '.' :: dottedText labels := by
  rw [dottedText, flatMap_cons, append_assoc]
  rfl

section Hosts

variable {host text : UString} {parsedHost : UString × Bool}

def HostName.ofDotted (last : HostLabel) : List HostLabel → HostName
  | [] => ⟨last, []⟩
  | label :: labels => ⟨label, (ofDotted last labels).first :: (ofDotted last labels).rest⟩

theorem HostName.text_ofDotted (last : HostLabel) (labels : List HostLabel) :
    (HostName.ofDotted last labels).text = dottedText labels ++ last.text := by
  induction labels with
  | nil => simp [HostName.ofDotted, HostName.text, dottedText]
  | cons label labels ih =>
    rw [dottedText_cons, append_assoc, cons_append, ← ih]
    simp [HostName.ofDotted, HostName.text]

/-- Each turn of the loop takes a label, and the dot behind it. -/
theorem skipLabels_iff : skipLabels text = true ↔ (∃ labels, text = dottedText labels) ∨
    ∃ name : HostName, text = name.text := by
  constructor
  · intro h
    suffices ∃ labels, text = dottedText labels ∨ ∃ last : HostLabel,
        text = dottedText labels ++ last.text by
      obtain ⟨labels, hdotted | ⟨last, hlast⟩⟩ := this
      · exact .inl ⟨labels, hdotted⟩
      · exact .inr ⟨.ofDotted last labels, hlast.trans (HostName.text_ofDotted last labels).symm⟩
    fun_induction skipLabels text with
    | case1 => exact ⟨[], .inl rfl⟩
    | case2 => cases h
    | case3 c rest hc hrest =>
      refine ⟨[], .inr ⟨⟨c :: rest, cons_ne_nil c rest, ?_⟩, rfl⟩⟩
      rw [forall_mem_cons]
      exact ⟨by simpa using hc, dropWhile_eq_nil_iff.mp hrest⟩
    | case4 c rest hc rest' hrest ih =>
      obtain ⟨labels, hlabels⟩ := ih h
      let label : HostLabel := ⟨c :: rest.takeWhile isHostCharacter, cons_ne_nil _ _, by
        rw [forall_mem_cons]
        exact ⟨by simpa using hc, fun d => mem_takeWhile_imp⟩⟩
      have hsplit : c :: rest = label.text ++ ch '.' :: rest' := by
        conv_lhs => rw [← takeWhile_append_dropWhile (p := isHostCharacter) (l := rest), hrest]
        simp [label]
      refine ⟨label :: labels, ?_⟩
      rw [dottedText_cons, hsplit]
      rcases hlabels with rfl | ⟨last, rfl⟩
      · exact .inl rfl
      · exact .inr ⟨last, by simp⟩
    | case5 => cases h
  · rintro (⟨labels, rfl⟩ | ⟨name, rfl⟩)
    · induction labels with
      | nil => exact skipLabels.eq_1
      | cons label labels ih =>
        obtain ⟨c, rest, hrest, hchars⟩ := label.exists_cons
        rw [dottedText_cons, hrest, cons_append, skipLabels, if_neg (by simp [hchars.1]),
          dropWhile_append_of_pos hchars.2]
        exact ih
    · exact skipLabels_text name.first

/-- The first character of a label. -/
theorem exists_cons_dottedText (h : labels ≠ []) :
    ∃ c rest, dottedText labels = c :: rest ∧ isHostCharacter c = true := by
  obtain ⟨label, labels, rfl⟩ := exists_cons_of_ne_nil h
  obtain ⟨c, rest, hrest⟩ := exists_cons_of_ne_nil label.ne_nil
  refine ⟨c, rest ++ ch '.' :: dottedText labels, by rw [dottedText_cons, hrest, cons_append], ?_⟩
  exact label.host_char c (by rw [hrest]; exact mem_cons_self)

theorem parseHost_dotted (host : DottedHost) :
    parseHost host.text = some (dottedText host.labels, host.wildcard) := by
  have hlabels := skipLabels_iff.mpr (.inl ⟨host.labels, rfl⟩)
  obtain ⟨_ | _, labels, hne⟩ := host
  · obtain ⟨c, rest, hrest, hc⟩ := exists_cons_dottedText (hne.resolve_left Bool.false_ne_true)
    rw [hrest] at hlabels
    rw [DottedHost.text, if_neg Bool.false_ne_true, nil_append, hrest]
    simp only [parseHost, (isPlain_of_hostCharacter hc).1.2.2.1, if_false, hlabels, if_true]
  · rw [DottedHost.text, if_pos rfl, cons_append, cons_append, nil_append, parseHost]
    simp only [hlabels, decide_true, Bool.and_self, if_true]

theorem parseHost_iff : parseHost text = some parsedHost ↔ LooseHost text parsedHost := by
  constructor
  · intro h
    cases text with
    | nil => cases h
    | cons c rest =>
      simp only [parseHost] at h
      split at h
      · rename_i hstar
        subst hstar
        split at h
        · cases h
          exact .inl ⟨.any, rfl, rfl⟩
        · split at h
          · rename_i hboth
            obtain ⟨hdot, hlabels⟩ := Bool.and_eq_true .. ▸ hboth
            cases of_decide_eq_true hdot
            cases h
            rcases skipLabels_iff.mp hlabels with ⟨labels, rfl⟩ | ⟨name, rfl⟩
            · exact .inr ⟨⟨true, labels, .inl rfl⟩, rfl, rfl⟩
            · exact .inl ⟨.name true name, rfl, rfl⟩
          · cases h
      · split at h
        · rename_i hlabels
          cases h
          rcases skipLabels_iff.mp hlabels with ⟨labels, hdotted⟩ | ⟨name, hname⟩
          · refine .inr ⟨⟨false, labels, .inr ?_⟩, hdotted, by rw [hdotted]⟩
            rintro rfl
            cases hdotted
          · exact .inl ⟨.name false name, hname, by rw [hname]; rfl⟩
        · cases h
  · rintro (⟨pattern, rfl, rfl⟩ | ⟨dotted, rfl, rfl⟩)
    · exact parseHost_text pattern
    · exact parseHost_dotted dotted

variable (h : LooseHost host parsedHost)

include h

theorem LooseHost.ne_colon : ∀ c ∈ host, c ≠ ch ':' := by
  rcases h with ⟨pattern, rfl, -⟩ | ⟨⟨wildcard, labels, -⟩, rfl, -⟩
  · exact pattern.ne_colon
  · intro c hc
    rcases mem_append.mp hc with hc | hc
    · cases wildcard with
      | false => cases hc
      | true =>
        rcases mem_cons.mp hc with rfl | hc
        · decide
        · rw [mem_singleton.mp hc]
          decide
    · obtain ⟨label, -, hlabel⟩ := mem_flatMap.mp hc
      rcases mem_append.mp hlabel with hlabel | hdot
      · exact (label.isPlain c hlabel).2.1
      · rw [mem_singleton.mp hdot]
        decide

/-- A host has characters or a wildcard. -/
theorem LooseHost.ne_nil :
    ¬(parsedHost.1 = [] ∧ parsedHost.2 = false) := by
  rcases h with ⟨pattern, -, rfl⟩ | ⟨dotted, -, rfl⟩
  · cases pattern with
    | any => exact fun h => nomatch h.2
    | name wildcard name =>
      obtain ⟨c, rest, hrest, -⟩ := name.exists_cons
      exact fun h => absurd (hrest.symm.trans h.1) (cons_ne_nil c rest)
  · rintro ⟨hnil, hwildcard⟩
    have hne := dotted.ne_nil.resolve_left (Bool.eq_false_iff.mp hwildcard)
    obtain ⟨c, rest, hrest, -⟩ := exists_cons_dottedText hne
    exact absurd (hrest.symm.trans hnil) (cons_ne_nil c rest)

theorem LooseHost.exists_cons :
    ∃ c rest, host = c :: rest ∧ IsStart c := by
  rcases h with ⟨pattern, rfl, -⟩ | ⟨⟨wildcard, labels, hne⟩, rfl, -⟩
  · exact pattern.exists_cons
  · cases wildcard with
    | true => exact ⟨ch '*', _, rfl, isStart_star⟩
    | false =>
      obtain ⟨c, rest, hrest, hc⟩ := exists_cons_dottedText (hne.resolve_left Bool.false_ne_true)
      exact ⟨c, rest, hrest, isStart_of_hostCharacter hc⟩

omit h

theorem DotHost.getLast? (h : DotHost host parsedHost) : host.getLast? = some (ch '.') := by
  obtain ⟨⟨wildcard, labels, hne⟩, rfl, -⟩ := h
  rw [DottedHost.text]
  cases labels using reverseRecOn with
  | nil =>
    obtain rfl : wildcard = true := hne.resolve_right (not_not.mpr rfl)
    rfl
  | append_singleton labels label => simp [dottedText]

theorem HostName.getLast?_ne (name : HostName) : name.text.getLast? ≠ some (ch '.') := by
  suffices h : ∃ front, ∃ last : HostLabel, name.text = front ++ last.text by
    obtain ⟨front, last, htext⟩ := h
    rw [htext, getLast?_append_of_ne_nil _ last.ne_nil]
    exact fun hdot => (isPlain_of_hostCharacter (last.host_char _ (mem_of_getLast? hdot))).2 rfl
  cases hrest : name.rest using reverseRecOn with
  | nil => exact ⟨[], name.first, by rw [text, hrest, flatMap_nil, append_nil, nil_append]⟩
  | append_singleton labels last =>
    refine ⟨name.first.text ++ (labels.flatMap fun label => ch '.' :: label.text) ++ [ch '.'],
      last, ?_⟩
    rw [text, hrest]
    simp

theorem GrammarHost.getLast?_ne (h : GrammarHost host parsedHost) :
    host.getLast? ≠ some (ch '.') := by
  obtain ⟨pattern, rfl, -⟩ := h
  cases pattern with
  | any => decide
  | name wildcard name =>
    obtain ⟨c, rest, hrest, -⟩ := name.exists_cons
    rw [HostPattern.text, getLast?_append_of_ne_nil _ (by rw [hrest]; exact cons_ne_nil c rest)]
    exact name.getLast?_ne

end Hosts

/-! ## The sources -/

/-- The text of a source and its parts, with a host of one kind. -/
structure IsSource (Host : UString → UString × Bool → Prop) (text : UString)
    (source : ParsedSource) : Prop where
  parts : ∃ schemeName host parsedHost port parsed, Host host parsedHost ∧
    text = schemeText schemeName ++ host ++ portText port ∧ parsedPort port = some parsed ∧
      source = ⟨schemeName.elim [] SchemeName.text, parsedHost.1, parsed.1, parsedHost.2, parsed.2⟩

section Sources

variable {text : UString} {source : ParsedSource}

theorem parsePort_sound (h : parsePort text = some port) :
    ∃ pattern : PortPattern, text = pattern.text ∧ pattern.parsed = some port := by
  rw [parsePort] at h
  split at h
  · cases h
  · rename_i hne
    split at h
    · rename_i hstar
      exact ⟨.any, hstar, h⟩
    · split at h
      · rename_i hdigits
        let digits : Digits := ⟨text, hne, all_eq_true.mp hdigits⟩
        refine ⟨.number digits, rfl, ?_⟩
        rw [charactersToIntStrict_eq digits.digit (by decide)] at h
        rw [PortPattern.parsed]
        split at h
        · rw [if_pos ‹_›]
          exact h
        · cases h
      · cases h

theorem parseScheme_sound (h : parseScheme text = some scheme) :
    ∃ name : SchemeName, text = name.text ∧ scheme = name.text := by
  cases text with
  | nil => cases h
  | cons c rest =>
    rw [parseScheme] at h
    split at h
    · rename_i hboth
      cases h
      rw [Bool.and_eq_true, all_eq_true] at hboth
      exact ⟨⟨c, rest, hboth.1, hboth.2⟩, rfl, rfl⟩
    · cases h

theorem parseHostAndPort_sound (h : parseHostAndPort scheme text = some source) :
    ∃ host parsedHost port parsed, LooseHost host parsedHost ∧ text = host ++ portText port ∧
      parsedPort port = some parsed ∧
        source = ⟨scheme, parsedHost.1, parsed.1, parsedHost.2, parsed.2⟩ := by
  have hsplit := takeWhile_append_dropWhile (p := (· != ch ':')) (l := text)
  have hhead := head?_dropWhile_not (· != ch ':') text
  rw [parseHostAndPort] at h
  generalize text.takeWhile (· != ch ':') = host at h hsplit
  generalize text.dropWhile (· != ch ':') = rest at h hsplit hhead
  subst hsplit
  split at h
  · cases h
  · split at h
    · cases h
    · rename_i name wildcard hhost
      split at h
      · cases h
        exact ⟨host, _, none, _, parseHost_iff.mp hhost, rfl, rfl, rfl⟩
      · rename_i c rest
        obtain ⟨port, hport, rfl⟩ := Option.map_eq_some_iff.mp h
        obtain ⟨pattern, rfl, hpattern⟩ := parsePort_sound hport
        have hc : c = ch ':' := by simpa using hhead
        exact ⟨host, _, some pattern, _, parseHost_iff.mp hhost, by rw [hc]; rfl, hpattern, rfl⟩

/-- What is parsed is a scheme, or the parts of a host source. -/
theorem parseExpression_sound (h : parseExpression text = some source) :
    source.host = [] ∧ source.hostHasWildcard = false ∨ IsSource LooseHost text source := by
  have hsplit := takeWhile_append_dropWhile (p := (· != ch ':')) (l := text)
  have hhead := head?_dropWhile_not (· != ch ':') text
  rw [parseExpression] at h
  generalize text.takeWhile (· != ch ':') = front at h hsplit
  generalize text.dropWhile (· != ch ':') = rest at h hsplit hhead
  split at h
  · obtain ⟨host, hhost, rfl⟩ := Option.map_eq_some_iff.mp h
    exact .inr ⟨none, front, host, none, _, parseHost_iff.mp hhost, hsplit.symm, rfl, rfl⟩
  · obtain ⟨scheme, -, rfl⟩ := Option.map_eq_some_iff.mp h
    exact .inl ⟨rfl, rfl⟩
  · rename_i d c rest
    have hd : d = ch ':' := by simpa using hhead
    split at h
    · rename_i hc
      split at h
      · rename_i scheme e rest hscheme
        split at h
        · rename_i he
          obtain ⟨name, rfl, rfl⟩ := parseScheme_sound hscheme
          obtain ⟨host, parsedHost, port, parsed, hhost, rfl, hport, rfl⟩ :=
            parseHostAndPort_sound h
          refine .inr ⟨some name, host, parsedHost, port, parsed, hhost, ?_, hport, rfl⟩
          rw [← hsplit, hd, hc, he]
          simp [schemeText]
        · cases h
      · cases h
    · obtain ⟨host, parsedHost, port, parsed, hhost, htext, hport, rfl⟩ := parseHostAndPort_sound h
      exact .inr ⟨none, host, parsedHost, port, parsed, hhost, htext, hport, rfl⟩

/-- The text between the scheme and the port. -/
def hostPart (text : UString) : UString :=
  match text.dropWhile (· != ch ':') with
  | _ :: c :: rest =>
    if c = ch '/' then (rest.drop 1).takeWhile (· != ch ':') else text.takeWhile (· != ch ':')
  | _ => text.takeWhile (· != ch ':')

theorem hostPart_source {host : UString} (schemeName : Option SchemeName)
    (hcolon : ∀ c ∈ host, c ≠ ch ':') (port : Option PortPattern) :
    hostPart (schemeText schemeName ++ host ++ portText port) = host := by
  have htake := takeWhile_colon hcolon (head_portText port)
  cases schemeName with
  | none =>
    rw [schemeText, Option.elim_none, nil_append, hostPart, htake,
      dropWhile_colon hcolon (head_portText port)]
    split
    · rename_i d c rest hport
      cases port with
      | none => cases hport
      | some port =>
        obtain ⟨c', rest', hrest, hc⟩ := port.exists_cons
        rw [portText, Option.elim_some, hrest] at hport
        cases hport
        exact if_neg hc
    · rfl
  | some name =>
    have hname : ∀ c ∈ name.text, c ≠ ch ':' := fun c hc => (name.isPlain c hc).2.1
    have hslashes : ∀ c ∈ ([ch ':', ch '/', ch '/'] ++ (host ++ portText port)).head?,
        c = ch ':' := fun c hc => (Option.some_inj.mp hc).symm
    rw [schemeText, Option.elim_some, append_assoc, append_assoc, hostPart,
      dropWhile_colon hname hslashes]
    exact htake

theorem IsSource.hostPart
    (hhost : ∀ host parsedHost, Host host parsedHost → LooseHost host parsedHost)
    (h : IsSource Host text source) : ∃ parsedHost, Host (hostPart text) parsedHost := by
  obtain ⟨schemeName, host, parsedHost, port, parsed, hhost', rfl, -, -⟩ := h
  rw [hostPart_source schemeName (hhost host parsedHost hhost').ne_colon]
  exact ⟨parsedHost, hhost'⟩

theorem isSource_or : IsSource LooseHost text source ↔
    IsSource GrammarHost text source ∨ IsSource DotHost text source := by
  constructor
  · rintro ⟨schemeName, host, parsedHost, port, parsed, hgrammar | hdot, hrest⟩
    · exact .inl ⟨schemeName, host, parsedHost, port, parsed, hgrammar, hrest⟩
    · exact .inr ⟨schemeName, host, parsedHost, port, parsed, hdot, hrest⟩
  · rintro (⟨schemeName, host, parsedHost, port, parsed, hhost, hrest⟩ |
      ⟨schemeName, host, parsedHost, port, parsed, hhost, hrest⟩)
    · exact ⟨schemeName, host, parsedHost, port, parsed, .inl hhost, hrest⟩
    · exact ⟨schemeName, host, parsedHost, port, parsed, .inr hhost, hrest⟩

variable {foldCase : UChar → UChar}

/-- The outputs where `parseSource` returns true. -/
def parseSource (foldCase : UChar → UChar) (text : UString) : Option ParsedSource :=
  if text = [] ∨ text = [ch '*'] ∨ equalIgnoringCaseLiteral foldCase "'self'" text ∨
      equalIgnoringCaseLiteral foldCase "'unsafe-inline'" text ∨
      equalIgnoringCaseLiteral foldCase "'unsafe-eval'" text then none
  else parseExpression text

/-- A source that is output is added to the list. -/
theorem addSource_of_parseSource (h : parseSource foldCase text = some source)
    (origin : SecurityOrigin) (sourceList : CSPSourceList) :
    sourceList.addSource foldCase origin text =
      let scheme := if source.scheme.isEmpty then origin.protocol else source.scheme
      { sourceList with
        list := sourceList.list ++ [⟨scheme, source.host, source.port, source.hostHasWildcard,
          source.portHasWildcard⟩] } := by
  rw [parseSource] at h
  split at h
  · cases h
  · rename_i hkeyword
    simp only [not_or] at hkeyword
    obtain ⟨hnil, hstar, hself, hinline, heval⟩ := hkeyword
    rw [CSPSourceList.addSource, if_neg hnil, if_neg hstar, if_neg hself, if_neg hinline,
      if_neg heval, h]

theorem parseSource_of_isSource (hfold : FoldsASCII foldCase) (h : IsSource LooseHost text source)
    (hstar : text ≠ [ch '*']) : parseSource foldCase text = some source ∧
      ¬(source.host = [] ∧ source.hostHasWildcard = false) := by
  obtain ⟨schemeName, host, parsedHost, port, parsed, hhost, rfl, hport, rfl⟩ := h
  refine ⟨?_, hhost.ne_nil⟩
  have hparse := parseExpression_of_host schemeName hhost.ne_colon (parseHost_iff.mpr hhost) port
  obtain ⟨c, rest, hrest, hc⟩ : ∃ c rest,
      schemeText schemeName ++ host ++ portText port = c :: rest ∧ IsStart c := by
    cases schemeName with
    | none =>
      obtain ⟨c, rest, rfl, hc⟩ := hhost.exists_cons
      exact ⟨c, rest ++ portText port, rfl, hc⟩
    | some name => exact ⟨name.first, _, rfl, name.isStart⟩
  rw [hport] at hparse
  rw [hrest] at hstar hparse ⊢
  rw [parseSource, not_keyword hfold hc.1 hc.2.2 "'self'" _ rfl,
    not_keyword hfold hc.1 hc.2.2 "'unsafe-inline'" _ rfl,
    not_keyword hfold hc.1 hc.2.2 "'unsafe-eval'" _ rfl, if_neg (by simp [hstar])]
  exact hparse

/-- The source of a host that `parseSource` outputs. -/
def AcceptsHost (foldCase : UChar → UChar) (text : UString) (source : ParsedSource) : Prop :=
  parseSource foldCase text = some source ∧ ¬(source.host = [] ∧ source.hostHasWildcard = false)

/-- What is accepted is derived, and what is derived is accepted, the asterisk as that of the
list. -/
structure FollowsGrammar (foldCase : UChar → UChar) (text : UString) : Prop where
  derived : ∀ source, AcceptsHost foldCase text source → IsSource GrammarHost text source
  accepted : ∀ source, IsSource GrammarHost text source → AcceptsHost foldCase text source ∨
    text = [ch '*'] ∧ ∀ origin sourceList,
      CSPSourceList.addSource foldCase origin sourceList text = sourceList.addSourceStar

/-- The parser follows the grammar but for the hosts that end in a dot. -/
theorem followsGrammar_iff (hfold : FoldsASCII foldCase) (text : UString) :
    FollowsGrammar foldCase text ↔ ¬∃ source, IsSource DotHost text source := by
  constructor
  · rintro ⟨hderived, -⟩ ⟨source, hdot⟩
    obtain ⟨_, hend⟩ := hdot.hostPart fun _ _ => .inr
    have hstar : text ≠ [ch '*'] := by
      rintro rfl
      exact absurd hend.getLast? (by decide)
    obtain ⟨_, hhost⟩ := (hderived source (parseSource_of_isSource hfold
      (isSource_or.mpr (.inr hdot)) hstar)).hostPart fun _ _ => .inl
    exact hhost.getLast?_ne hend.getLast?
  · intro hnot
    refine ⟨fun source ⟨hparse, hhost⟩ => ?_, fun source hsource => ?_⟩
    · rw [parseSource] at hparse
      split at hparse
      · cases hparse
      · have hsource := (parseExpression_sound hparse).resolve_left hhost
        exact (isSource_or.mp hsource).resolve_right fun hdot => hnot ⟨source, hdot⟩
    · by_cases hstar : text = [ch '*']
      · refine .inr ⟨hstar, fun origin sourceList => ?_⟩
        rw [hstar, CSPSourceList.addSource, if_neg (cons_ne_nil _ _), if_pos rfl]
      · exact .inl (parseSource_of_isSource hfold (isSource_or.mpr (.inl hsource)) hstar)

end Sources

theorem foldsASCII_toASCIILower : FoldsASCII toASCIILower := fun _ _ => rfl

theorem followsGrammar_iff_port : FollowsGrammar toASCIILower ("http://*.a.b:80".toList.map ch) ↔
    ¬∃ source, IsSource DotHost ("http://*.a.b:80".toList.map ch) source :=
  followsGrammar_iff foldsASCII_toASCIILower _

/-- `a.` -/
def dottedA : DottedHost :=
  ⟨false, [⟨[ch 'a'], cons_ne_nil _ _, all_eq_true.mp rfl⟩], .inr (cons_ne_nil _ _)⟩

/-- The host `a.` is accepted, and no host of the grammar ends in a dot. -/
theorem not_followsGrammar_dot : ¬FollowsGrammar toASCIILower dottedA.text := by
  intro h
  have hsource : IsSource DotHost dottedA.text ⟨[], dottedText dottedA.labels, 0, false, false⟩ :=
    ⟨none, dottedA.text, _, none, _, ⟨dottedA, rfl, rfl⟩, (append_nil _).symm, rfl, rfl⟩
  have haccepts := parseSource_of_isSource foldsASCII_toASCIILower (isSource_or.mpr (.inr hsource))
    (by decide)
  obtain ⟨_, hhost⟩ := (h.derived _ haccepts).hostPart fun _ _ => .inl
  exact hhost.getLast?_ne (by decide)

end WebKit.Page
