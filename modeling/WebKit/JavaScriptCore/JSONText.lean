import WebKit.JavaScriptCore.LiteralParsing

/-!
# JSON texts

In strict mode `tryLiteralParse` reads the JSON texts of ES5.1 15.12.1, with these slips.  It takes a
semicolon after the value, which only the other modes need.  The arithmetic of short integers has
no negative zero, so that `-0` is read as `0` unless the text ends with it; a string is read without
what 31 bits cannot count.  And there is no room for every number and every string.

* `Json.Kept`: nothing that is left of a tree is read in another way than it is spelled.
* `evaluate_inside_iff`: those are the trees that are read as they denote.
* `hasRoom_of_length`: there is room for what is shorter than `2 ^ 30 - 7`.
* `parsesAsJSON_iff`: when a text is read as the grammar says.
* `dependsOnLiteral_iff`: when what is read of a number does not depend on the text behind it.
-/

namespace WebKit.JavaScriptCore.LiteralParser

open WTF
open List NumberLiteral

/-! ## Objects with repeated names -/

section Members

variable {V W : Type*}

theorem map_putDirect (f : V → W) (properties : List (UString × V)) (name : UString) (value : V) :
    (putDirect properties name value).map (Prod.map id f) =
      putDirect (properties.map (Prod.map id f)) name (f value) := by
  induction properties with
  | nil => rfl
  | cons property properties ih =>
    obtain ⟨name', value'⟩ := property
    rw [putDirect]
    change _ = putDirect ((name', f value') :: _) name (f value)
    rw [putDirect]
    split
    · rfl
    · rw [map_cons, ih]
      rfl

theorem map_makeObject (f : V → W) (members : List (UString × V)) :
    (makeObject members).map (Prod.map id f) = makeObject (members.map (Prod.map id f)) := by
  have hfold : ∀ properties : List (UString × V),
      (members.foldl (fun properties member => putDirect properties member.1 member.2)
        properties).map (Prod.map id f) =
      (members.map (Prod.map id f)).foldl
        (fun properties member => putDirect properties member.1 member.2)
        (properties.map (Prod.map id f)) := by
    induction members with
    | nil => exact fun _ => rfl
    | cons member members ih =>
      intro properties
      rw [foldl_cons, ih, map_putDirect]
      rfl
  exact hfold []

variable {property : UString × V} {members : List (UString × V)}

theorem mem_putDirect (h : property ∈ putDirect properties name value) :
    property = (name, value) ∨ property ∈ properties := by
  induction properties with
  | nil => exact .inl (mem_singleton.mp h)
  | cons property' properties ih =>
    rw [putDirect] at h
    split at h
    · exact (mem_cons.mp h).imp id fun h => mem_cons_of_mem _ h
    · rcases mem_cons.mp h with rfl | h
      · exact .inr mem_cons_self
      · exact (ih h).imp id fun h => mem_cons_of_mem _ h

theorem names_putDirect (properties : List (UString × V)) (name : UString) (value : V) :
    name ∈ (putDirect properties name value).map Prod.fst ∧
      ∀ name' ∈ properties.map Prod.fst, name' ∈ (putDirect properties name value).map Prod.fst := by
  induction properties with
  | nil => exact ⟨mem_singleton_self _, nofun⟩
  | cons property' properties ih =>
    rw [putDirect]
    split
    · rename_i heq
      subst heq
      exact ⟨mem_cons_self, fun _ h => h⟩
    · refine ⟨mem_cons_of_mem _ ih.1, fun name'' h => ?_⟩
      rcases mem_cons.mp h with rfl | h
      · exact mem_cons_self
      · exact mem_cons_of_mem _ (ih.2 _ h)

theorem mem_of_mem_makeObject
    (h : property ∈ makeObject members) : property ∈ members := by
  have hfold : ∀ properties : List (UString × V),
      property ∈ members.foldl (fun properties member => putDirect properties member.1 member.2)
        properties → property ∈ properties ∨ property ∈ members := by
    clear h
    induction members with
    | nil => exact fun _ h => .inl h
    | cons member members ih =>
      intro properties h
      rcases ih _ h with h | h
      · rcases mem_putDirect h with rfl | h
        · exact .inr mem_cons_self
        · exact .inl h
      · exact .inr (mem_cons_of_mem _ h)
  exact (hfold [] h).resolve_left nofun

theorem names_makeObject {member : UString × V}
    (h : member ∈ members) : member.1 ∈ (makeObject members).map Prod.fst := by
  have hfold : ∀ properties : List (UString × V),
      (∀ name ∈ properties.map Prod.fst, name ∈ (members.foldl
        (fun properties member => putDirect properties member.1 member.2) properties).map Prod.fst) ∧
      (member ∈ members → member.1 ∈ (members.foldl
        (fun properties member => putDirect properties member.1 member.2) properties).map
          Prod.fst) := by
    clear h
    induction members with
    | nil => exact fun _ => ⟨fun _ h => h, nofun⟩
    | cons member' members ih =>
      intro properties
      obtain ⟨h1, h2⟩ := ih (putDirect properties member'.1 member'.2)
      obtain ⟨h3, h4⟩ := names_putDirect properties member'.1 member'.2
      refine ⟨fun name h => h1 _ (h4 _ h), fun h => ?_⟩
      rcases mem_cons.mp h with rfl | h
      · exact h1 _ h3
      · exact h2 h
  exact (hfold []).2 h

end Members

/-! ## What is read as it is spelled -/

theorem Json.induction {P : Json → Prop} (null : P .null) (boolean : ∀ b, P (.boolean b))
    (number : ∀ l, P (.number l)) (string : ∀ s, P (.string s))
    (array : ∀ elements, (∀ e ∈ elements, P e) → P (.array elements))
    (object : ∀ members, (∀ m ∈ members, P m.2) → P (.object members)) (json : Json) : P json :=
  @Json.rec P (fun elements => ∀ e ∈ elements, P e) (fun members => ∀ m ∈ members, P m.2)
    (fun m => P m.2) null boolean number string array object (by simp)
    (fun _ _ h hs => forall_mem_cons.mpr ⟨h, hs⟩) (by simp)
    (fun _ _ h hs => forall_mem_cons.mpr ⟨h, hs⟩) (fun _ _ h => h) json

/-- No string that is left of a tree is longer than the parser can count, and no number is `-0`.  Of
the members with one name only the last one is left. -/
inductive Json.Kept : Json → Prop
  | null : Json.Kept .null
  | boolean (value : Bool) : Json.Kept (.boolean value)
  | number {l : NumberLiteral} (h : ¬l.IsNegativeZero) : Json.Kept (.number l)
  | string {value : UString} (h : value.length < 2 ^ 31) : Json.Kept (.string value)
  | array {elements : List Json} (h : ∀ e ∈ elements, Json.Kept e) : Json.Kept (.array elements)
  | object {members : List (UString × Json)} (hnames : ∀ m ∈ members, m.1.length < 2 ^ 31)
      (h : ∀ m ∈ makeObject members, Json.Kept m.2) : Json.Kept (.object members)

theorem length_stored (characters : UString) : (stored characters).length < 2 ^ 31 := by
  rw [stored, length_take]
  exact Nat.lt_of_le_of_lt (Nat.min_le_left _ _) (Nat.mod_lt _ (by decide))

theorem stored_eq_iff {characters : UString} :
    stored characters = characters ↔ characters.length < 2 ^ 31 := by
  constructor
  · intro h
    rw [← h]
    exact length_stored characters
  · intro h
    rw [stored, Nat.mod_eq_of_lt h, take_length]

section Reading

variable {Number : Type*} (numbers : Numbers Number)

/-- The sign and the digit of the literal `-0`. -/
theorem NumberLiteral.IsNegativeZero.eq_zero {l : NumberLiteral} (h : l.IsNegativeZero) :
    l.negative = true ∧ l.magnitude = 0 := by
  obtain ⟨hf, he⟩ := fraction_of_isNegativeZero h
  have htext := text_int hf he
  have hneg : l.negative = true ∧ l.int = [ch '0'] := by
    rw [h, signText] at htext
    cases hn : l.negative with
    | true =>
      rw [hn] at htext
      exact ⟨rfl, (List.cons.inj htext).2.symm⟩
    | false =>
      rw [hn] at htext
      obtain ⟨d, ds, hint, hd, -⟩ := l.isInt.isDigits.head
      rw [hint] at htext
      rw [← (List.cons.inj htext).1] at hd
      exact absurd hd (by decide)
  refine ⟨hneg.1, ?_⟩
  rw [magnitude_int hf he, hneg.2]
  rfl

theorem inside_number_iff (l : NumberLiteral) :
    numbers.inside.number l = numbers.denotation.number l ↔ ¬l.IsNegativeZero := by
  change (if l.text = [ch '-', ch '0'] then numbers.round false 0
    else numbers.round l.negative l.magnitude) = numbers.round l.negative l.magnitude ↔ _
  by_cases h : l.text = [ch '-', ch '0']
  · obtain ⟨hnegative, hmagnitude⟩ := IsNegativeZero.eq_zero h
    rw [if_pos h, hnegative, hmagnitude]
    exact ⟨fun heq => absurd heq.symm numbers.negativeZero_ne, fun hne => absurd h hne⟩
  · rw [if_neg h]
    exact ⟨fun _ => h, fun _ => rfl⟩

/-- Those trees are read as they denote. -/
theorem evaluate_inside_iff (json : Json) :
    json.evaluate numbers.inside = json.evaluate numbers.denotation ↔ json.Kept := by
  induction json using Json.induction with
  | null => exact ⟨fun _ => .null, fun _ => rfl⟩
  | boolean b => exact ⟨fun _ => .boolean b, fun _ => rfl⟩
  | number l =>
    rw [Json.evaluate, Json.evaluate, JSValue.number.injEq, inside_number_iff]
    refine ⟨.number, ?_⟩
    rintro (_ | _ | h)
    exact h
  | string s =>
    rw [Json.evaluate, Json.evaluate, JSValue.string.injEq]
    refine ⟨fun h => .string (stored_eq_iff.mp h), ?_⟩
    rintro (_ | _ | _ | h)
    exact stored_eq_iff.mpr h
  | array elements ih =>
    rw [Json.evaluate, Json.evaluate, JSValue.array.injEq, evaluateElements_eq,
      evaluateElements_eq, map_inj_left]
    refine ⟨fun h => .array fun e he => (ih e he).mp (h e he), ?_⟩
    rintro (_ | _ | _ | _ | h)
    exact fun e he => (ih e he).mpr (h e he)
  | object members ih =>
    rw [Json.evaluate, Json.evaluate, JSValue.object.injEq, evaluateMembers_eq, evaluateMembers_eq]
    have hdenote : (members.map fun m =>
        (numbers.denotation.string m.1, m.2.evaluate numbers.denotation)) =
        members.map (Prod.map id (Json.evaluate numbers.denotation)) := rfl
    have hread : (∀ m ∈ members, m.1.length < 2 ^ 31) →
        (members.map fun m => (numbers.inside.string m.1, m.2.evaluate numbers.inside)) =
          members.map (Prod.map id (Json.evaluate numbers.inside)) := by
      intro hnames
      refine map_congr_left fun m hm => ?_
      change (stored m.1, _) = (m.1, _)
      rw [stored_eq_iff.mpr (hnames m hm)]
    have hequal : (∀ m ∈ members, m.1.length < 2 ^ 31) →
        (makeObject (members.map fun m => (numbers.inside.string m.1, m.2.evaluate numbers.inside)) =
            makeObject (members.map fun m =>
              (numbers.denotation.string m.1, m.2.evaluate numbers.denotation)) ↔
          ∀ m ∈ makeObject members,
            m.2.evaluate numbers.inside = m.2.evaluate numbers.denotation) := by
      intro hnames
      rw [hread hnames, hdenote, ← map_makeObject, ← map_makeObject, map_inj_left]
      exact forall₂_congr fun m _ => by simp [Prod.map]
    constructor
    · intro h
      have hnames : ∀ m ∈ members, m.1.length < 2 ^ 31 := by
        intro m hm
        have hname := names_makeObject (mem_map_of_mem (f := fun m : UString × Json =>
          (numbers.denotation.string m.1, m.2.evaluate numbers.denotation)) hm)
        rw [← h] at hname
        obtain ⟨property, hproperty, heq⟩ := mem_map.mp hname
        obtain ⟨m', -, rfl⟩ := mem_map.mp (mem_of_mem_makeObject hproperty)
        rw [show m.1 = stored m'.1 from heq.symm]
        exact length_stored _
      exact .object hnames fun m hm =>
        (ih m (mem_of_mem_makeObject hm)).mp ((hequal hnames).mp h m hm)
    · rintro (_ | _ | _ | _ | _ | ⟨hnames, h⟩)
      exact (hequal hnames).mpr fun m hm => (ih m (mem_of_mem_makeObject hm)).mpr (h m hm)

/-! ## Texts -/

variable {text rest : List UChar} {json : Json}

theorem type_end_iff :
    (lexerAt numbers mode text).currentToken.type = .end ↔ White text := by
  constructor
  · intro h
    rcases lexes_lexerAt numbers mode text with ⟨hwhite, -⟩ | ⟨-, text', -, -, hlexes⟩
    · exact hwhite
    · rw [eq_end_of_type h] at hlexes
      cases hlexes with
      | single hsingle => cases hsingle
  · intro h
    rw [lexerAt_end numbers h]
    rfl

theorem White.follows (h : White white) : Follows white := by
  rw [← append_nil white]
  exact Follows.white h nofun

/-- After a value there is white space, or a semicolon between white space. -/
def Ends (rest : List UChar) : Prop :=
  White rest ∨ ∃ white white', White white ∧ White white' ∧ rest = white ++ ch ';' :: white'

theorem Ends.follows (h : Ends rest) : Follows rest := by
  rcases h with h | ⟨white, white', h, -, rfl⟩
  · exact h.follows
  · exact (follows_cons (by decide) white').white h

theorem skipSemicolon_iff : (skipSemicolon numbers.toNumberOperations .strictJSON
      (lexerAt numbers .strictJSON rest)).currentToken.type = .end ↔ Ends rest := by
  rw [skipSemicolon]
  constructor
  · intro h
    split at h
    · rename_i hsemi
      obtain ⟨white, rest', hwhite, rfl, hlexer⟩ := single_of_token numbers .semi rfl hsemi
      rw [hlexer] at h
      exact .inr ⟨white, rest', hwhite, (type_end_iff numbers).mp h, rfl⟩
    · exact .inl ((type_end_iff numbers).mp h)
  · rintro (h | ⟨white, white', hwhite, hwhite', rfl⟩)
    · have hend : (lexerAt numbers .strictJSON rest).currentToken.type = .end :=
        (type_end_iff numbers).mpr h
      rwa [if_neg fun hsemi => by rw [hend] at hsemi; cases hsemi]
    · have hlexer : lexerAt numbers .strictJSON (white ++ ch ';' :: white') = ⟨.semi, white'⟩ :=
        lexerAt_of_lexes numbers hwhite (.single rfl white') nofun
      rw [hlexer]
      exact (type_end_iff numbers).mpr hwhite'

/-- What `tryLiteralParse` reads: a value with an end after it. -/
theorem tryLiteralParse_iff :
    tryLiteralParse numbers.toNumberOperations .strictJSON text = some value ↔
      ∃ white body rest json, White white ∧ JSONValue numbers.fits .strictJSON body json ∧
        Ends rest ∧ text = white ++ (body ++ rest) ∧ value = valueAt numbers rest json := by
  have heq : tryLiteralParse numbers.toNumberOperations .strictJSON text =
      if (skipSemicolon numbers.toNumberOperations .strictJSON
          (parse numbers.toNumberOperations .strictJSON .startParseExpression
            (lexerAt numbers .strictJSON text)).2).currentToken.type = .end then
        (parse numbers.toNumberOperations .strictJSON .startParseExpression
          (lexerAt numbers .strictJSON text)).1
      else none := rfl
  rw [heq]
  constructor
  · intro h
    cases hparse : parse numbers.toNumberOperations .strictJSON .startParseExpression
      (lexerAt numbers .strictJSON text) with
    | mk result lexer =>
      rw [hparse] at h
      split at h
      · rename_i hend
        subst h
        obtain ⟨white, body, rest, json, hwhite, hvalue, htext, hread, rfl⟩ :=
          parse_sound numbers hparse
        exact ⟨white, body, rest, json, hwhite, hvalue, (skipSemicolon_iff numbers).mp hend, htext,
          hread⟩
      · cases h
  · rintro ⟨white, body, rest, json, hwhite, hvalue, hends, rfl, rfl⟩
    rw [parse_complete numbers hwhite hvalue hends.follows]
    exact if_pos ((skipSemicolon_iff numbers).mpr hends)

/-- A text is read as the grammar says: there is a value if it is a JSON text, and the value is the
one that the text denotes. -/
def ParsesAsJSON (text : List UChar) : Prop :=
  ((∃ value, tryLiteralParse numbers.toNumberOperations .strictJSON text = some value) ↔
      ∃ json, JSONText anyLength .strictJSON text json) ∧
    ∀ value json, tryLiteralParse numbers.toNumberOperations .strictJSON text = some value →
      JSONText anyLength .strictJSON text json → value = json.evaluate numbers.denotation

/-- A JSON text with a semicolon after it. -/
def HasSemicolon (fits : List UChar → Bool) (text : List UChar) : Prop :=
  ∃ body white, text = body ++ ch ';' :: white ∧ White white ∧
    ∃ json, JSONText fits .strictJSON body json

/-- There is room for the numbers and the strings of a JSON text. -/
def FitsAsJSON (fits : List UChar → Bool) (text : List UChar) : Prop :=
  ∀ json, JSONText anyLength .strictJSON text json → ∃ json', JSONText fits .strictJSON text json'

/-- A JSON text whose numbers and strings are read as they are spelled: all that is left of it is,
or it is a number that ends the text. -/
def ReadsAsSpelled (text : List UChar) : Prop :=
  ∀ element : Element, element.IsWhite →
    JSONValue anyLength .strictJSON element.text element.value → element.spelled = text →
      element.value.Kept ∨ ∃ l, element.value = .number l ∧ element.after = []

/-- What is read of a tree has nothing to do with the room. -/
theorem valueAt_unlimited (rest : List UChar) (json : Json) :
    valueAt numbers.unlimited rest json = valueAt numbers rest json := by
  cases json <;> rfl

theorem valueAt_eq_iff : valueAt numbers rest json = json.evaluate numbers.denotation ↔
      json.Kept ∨ ∃ l, json = .number l ∧ rest = [] := by
  by_cases hnumber : ∃ l, json = .number l ∧ rest = []
  · obtain ⟨l, rfl, rfl⟩ := hnumber
    refine ⟨fun _ => .inr ⟨l, rfl, rfl⟩, fun _ => ?_⟩
    rw [valueAt, readNumber_of_ne numbers (.inr rfl)]
    rfl
  · have hvalue : valueAt numbers rest json = json.evaluate numbers.inside := by
      cases json with
      | number l => exact valueAt_of_ne numbers (fun hnil => hnumber ⟨l, rfl, hnil⟩) _
      | _ => rfl
    rw [hvalue, evaluate_inside_iff]
    exact ⟨.inl, fun h => h.resolve_right hnumber⟩

/-- The parser stops at one place: two values at the front of a text have the same tokens after
them. -/
theorem lexerAt_unique
    (hwhite : White white) (hwhite' : White white')
    (hvalue : JSONValue anyLength .strictJSON body json)
    (hvalue' : JSONValue anyLength .strictJSON body' json') (hrest : Follows rest)
    (hrest' : Follows rest') (h : white ++ (body ++ rest) = white' ++ (body' ++ rest')) :
    valueAt numbers rest json = valueAt numbers rest' json' ∧
      lexerAt numbers.unlimited .strictJSON rest = lexerAt numbers.unlimited .strictJSON rest' := by
  have hparse := parse_complete numbers.unlimited hwhite hvalue hrest
  rw [h, parse_complete numbers.unlimited hwhite' hvalue' hrest', Prod.mk.injEq,
    Option.some.injEq] at hparse
  exact ⟨(valueAt_unlimited numbers rest json).symm.trans
    (hparse.1.symm.trans (valueAt_unlimited numbers rest' json')), hparse.2.symm⟩

/-- A JSON text with a semicolon after it is none. -/
theorem not_jsonText_of_hasSemicolon (numbers : Numbers Number) (h : HasSemicolon fits text) :
    ¬JSONText anyLength .strictJSON text json := by
  rintro ⟨e, hwhite, hvalue, heq, -⟩
  obtain ⟨body, white, htext, -, json', e', hwhite', hvalue', rfl, -⟩ := h
  have hspelled : e.before ++ (e.text ++ e.after) =
      e'.before ++ (e'.text ++ (e'.after ++ ch ';' :: white)) := by
    have hsame := heq.trans htext
    rw [Element.spelled, Element.spelled] at hsame
    rw [hsame]
    simp
  have hfollows : Follows (e'.after ++ ch ';' :: white) :=
    (follows_cons (by decide) white).white hwhite'.2
  have hlexer := (lexerAt_unique numbers hwhite.1 hwhite'.1 hvalue hvalue'.anyLength
    hwhite.2.follows hfollows hspelled).2
  rw [lexerAt_end numbers.unlimited hwhite.2, lexerAt_of_lexes numbers.unlimited hwhite'.2
    (.single (show singleCharacter (.semi : Token Number) = _ from rfl) white) (by simp)] at hlexer
  cases hlexer

/-- A value that is read of a JSON text is that of its tree. -/
theorem value_of_tryLiteralParse
    (h : tryLiteralParse numbers.toNumberOperations .strictJSON text = some value) {e : Element}
    (hwhite : e.IsWhite) (hjson : JSONValue anyLength .strictJSON e.text e.value)
    (htext : e.spelled = text) : value = valueAt numbers e.after e.value := by
  obtain ⟨white, body, rest, json, hwhite', hjson', hends, heq, rfl⟩ :=
    (tryLiteralParse_iff numbers).mp h
  exact (lexerAt_unique numbers hwhite' hwhite.1 hjson'.anyLength hjson hends.follows
    hwhite.2.follows (heq.symm.trans htext.symm)).1

/-- A JSON text with room for its literals is read. -/
theorem exists_tryLiteralParse (h : JSONText numbers.fits .strictJSON text json) :
    ∃ value, tryLiteralParse numbers.toNumberOperations .strictJSON text = some value := by
  obtain ⟨e, hwhite, hjson, rfl, -⟩ := h
  exact ⟨_, (tryLiteralParse_iff numbers).mpr ⟨e.before, e.text, e.after, e.value, hwhite.1, hjson,
    .inl hwhite.2, rfl, rfl⟩⟩

/-- What is read is a JSON text, or one with a semicolon after it. -/
theorem jsonText_of_tryLiteralParse
    (h : tryLiteralParse numbers.toNumberOperations .strictJSON text = some value) :
    HasSemicolon numbers.fits text ∨ ∃ json, JSONText numbers.fits .strictJSON text json := by
  obtain ⟨white, body, rest, json, hwhite, hjson, hends, rfl, -⟩ :=
    (tryLiteralParse_iff numbers).mp h
  rcases hends with hrest | ⟨white', white'', hwhite', hwhite'', rfl⟩
  · exact .inr ⟨json, ⟨white, body, rest, json⟩, ⟨hwhite, hrest⟩, hjson, rfl, rfl⟩
  · exact .inl ⟨white ++ (body ++ white'), white'', by simp, hwhite'', json,
      ⟨white, body, white', json⟩, ⟨hwhite, hwhite'⟩, hjson, rfl, rfl⟩

theorem parsesAsJSON_iff_fits (text : List UChar) : ParsesAsJSON numbers text ↔
      ¬HasSemicolon numbers.fits text ∧ FitsAsJSON numbers.fits text ∧ ReadsAsSpelled text := by
  constructor
  · rintro ⟨hiff, hvalue⟩
    refine ⟨fun hsemicolon => ?_, fun json hjson => ?_, fun e hwhite h htext => ?_⟩
    · obtain ⟨body, white, rfl, hwhite, json, e, hwhites, hjson, rfl, -⟩ := hsemicolon
      obtain ⟨json', hjson'⟩ := hiff.mp ⟨_, (tryLiteralParse_iff numbers).mpr
        ⟨e.before, e.text, e.after ++ ch ';' :: white, e.value, hwhites.1, hjson,
          .inr ⟨e.after, white, hwhites.2, hwhite, rfl⟩, by simp [Element.spelled], rfl⟩⟩
      exact not_jsonText_of_hasSemicolon numbers
        ⟨e.spelled, white, rfl, hwhite, _, e, hwhites, hjson, rfl, rfl⟩ hjson'
    · obtain ⟨value, hread⟩ := hiff.mpr ⟨json, hjson⟩
      exact (jsonText_of_tryLiteralParse numbers hread).resolve_left fun hsemicolon =>
        not_jsonText_of_hasSemicolon numbers hsemicolon hjson
    · have hjson : JSONText anyLength .strictJSON text e.value := ⟨e, hwhite, h, htext, rfl⟩
      obtain ⟨value, hread⟩ := hiff.mpr ⟨_, hjson⟩
      have hvalueAt := value_of_tryLiteralParse numbers hread hwhite h htext
      exact (valueAt_eq_iff numbers).mp (hvalueAt.symm.trans (hvalue value _ hread hjson))
  · rintro ⟨hsemicolon, hroom, hspelled⟩
    refine ⟨⟨?_, ?_⟩, fun value json h => ?_⟩
    · rintro ⟨value, h⟩
      obtain ⟨json, e, hwhite, hjson, heq⟩ :=
        (jsonText_of_tryLiteralParse numbers h).resolve_left hsemicolon
      exact ⟨json, e, hwhite, hjson.anyLength, heq⟩
    · rintro ⟨json, hjson⟩
      obtain ⟨json', hjson'⟩ := hroom json hjson
      exact exists_tryLiteralParse numbers hjson'
    · rintro ⟨e, hwhite, hjson, htext, rfl⟩
      rw [value_of_tryLiteralParse numbers h hwhite hjson htext]
      exact (valueAt_eq_iff numbers).mpr (hspelled e hwhite hjson htext)

theorem appendCharacters_isSome (is8Bit : Bool) (text : List UChar) {skip run : ℕ}
    {builder : StringBuilder} (h : builder.length + run + text.length ≤ 2 ^ 30 - 8) :
    (appendCharacters is8Bit text skip run builder).isSome = true := by
  induction text generalizing skip run builder with
  | nil =>
    obtain ⟨appended, heq, -⟩ := builder.append_of_le is8Bit h
    rw [appendCharacters, heq]
    split <;> rfl
  | cons c text ih =>
    rw [length_cons] at h
    cases skip with
    | succ skip => exact ih (by omega)
    | zero =>
      rw [appendCharacters]
      split
      · obtain ⟨appended, heq, hlength⟩ :=
          builder.append_of_le is8Bit (show builder.length + run ≤ _ by omega)
        obtain ⟨wide, hwide, hwideLength⟩ :=
          appended.append_of_le false (show appended.length + 1 ≤ _ by omega)
        obtain ⟨narrow, hnarrow, hnarrowLength⟩ :=
          appended.append_of_le true (show appended.length + 1 ≤ _ by omega)
        rw [heq, Option.bind_some, hwide, hnarrow]
        split <;> exact ih (by omega)
      · exact ih (by omega)

/-- There is room for every literal that is not very long. -/
theorem hasRoom_of_length (is8Bit : Bool) {literal : List UChar}
    (h : literal.length ≤ 2 ^ 30 - 8) : hasRoom is8Bit literal = true := by
  cases literal with
  | nil => rfl
  | cons c rest =>
    rw [length_cons] at h
    rw [hasRoom]
    split
    · refine appendCharacters_isSome is8Bit _ ?_
      have hempty : StringBuilder.empty.length = 0 := rfl
      rw [length_dropLast, hempty]
      omega
    · exact decide_eq_true (by omega)

/-- A text is read as the grammar says if and only if it is not a JSON text with a semicolon after
it, there is room for its literals, and nothing in it is read in another way than it is spelled. -/
theorem parsesAsJSON_iff (is8Bit : Bool) (text : List UChar) :
    ParsesAsJSON (numbers.sized is8Bit) text ↔
      ¬HasSemicolon (hasRoom is8Bit) text ∧ FitsAsJSON (hasRoom is8Bit) text ∧
        ReadsAsSpelled text :=
  parsesAsJSON_iff_fits (numbers.sized is8Bit) text

end Reading

/-! ## Numbers without rounding -/

/-- The sign and the absolute value of a number's characters. -/
def exactStrtod (text : List UChar) : Bool × ℚ :=
  let negative := decide (text.head? = some (ch '-'))
  let body := if negative then text.tail else text
  let int := body.takeWhile isASCIIDigit
  let ptr := body.dropWhile isASCIIDigit
  let fraction := if ptr.head? = some (ch '.') then ptr.tail.takeWhile isASCIIDigit else []
  let ptr := if ptr.head? = some (ch '.') then ptr.tail.dropWhile isASCIIDigit else ptr
  let digits := digitsValue (skipSign ptr.tail)
  let exponent : ℤ := if ptr.tail.head? = some (ch '-') then -digits else digits
  (negative, digitsValue (int ++ fraction) * 10 ^ (exponent - fraction.length))

/-- The number with its sign. -/
def signedValue (x : Bool × ℚ) : ℚ := if x.1 then -x.2 else x.2

variable {digits : List UChar}

theorem takeWhile_digits (h : ∀ c ∈ digits, isASCIIDigit c)
    (hrest : NoDigit rest) : (digits ++ rest).takeWhile isASCIIDigit = digits := by
  rw [takeWhile_append_of_pos h]
  cases rest with
  | nil => simp
  | cons c rest => rw [takeWhile_cons_of_neg (hrest c rfl), append_nil]

variable (l : NumberLiteral)

theorem exponent_exactStrtod : (if (exponentText l.exponent).tail.head? = some (ch '-') then
        -(digitsValue (skipSign (exponentText l.exponent).tail) : ℤ)
      else digitsValue (skipSign (exponentText l.exponent).tail)) =
      exponentValue l.exponent := by
  cases he : l.exponent with
  | none => rfl
  | some e =>
    obtain ⟨letter, sign, digits⟩ := e
    obtain ⟨-, hsign, hdigits⟩ := l.isExponent _ (Option.mem_def.mpr he)
    have hskip : skipSign (sign.toList ++ (digits ++ [])) = digits ++ [] :=
      skipSign_toList hsign hdigits
    rw [append_nil] at hskip
    change (if (sign.toList ++ digits).head? = some (ch '-') then
      -(digitsValue (skipSign (sign.toList ++ digits)) : ℤ)
      else digitsValue (skipSign (sign.toList ++ digits))) = _
    rw [hskip, exponentValue]
    cases sign with
    | some c => rfl
    | none =>
      obtain ⟨d, ds, rfl, hd, -⟩ := hdigits.head
      have hminus : ¬(d :: ds).head? = some (ch '-') :=
        fun hc => ne_of_isASCIIDigit hd (by decide) (Option.some_inj.mp hc)
      exact (if_neg hminus).trans (if_neg (by simp)).symm

theorem exactStrtod_text : exactStrtod l.text = (l.negative, l.magnitude) := by
  obtain ⟨d, ds, hint, hd, -⟩ := l.isInt.isDigits.head
  have hminus : d ≠ ch '-' := ne_of_isASCIIDigit hd (by decide)
  have hnegative : decide (l.text.head? = some (ch '-')) = l.negative := by
    rw [text, signText, hint]
    cases l.negative with
    | true => rfl
    | false => exact decide_eq_false fun hc => hminus (Option.some_inj.mp hc)
  have hbody : (if l.negative then l.text.tail else l.text) = l.int ++
      (fractionText l.fraction ++ exponentText l.exponent) := by
    rw [text, signText]
    cases l.negative <;> rfl
  have hexponent : NoDigit (exponentText l.exponent) := by
    rw [← append_nil (exponentText l.exponent)]
    exact noDigit_exponentText fun c h => by cases h
  have hptr : NoDigit
      (fractionText l.fraction ++ exponentText l.exponent) := by
    cases l.fraction with
    | none => exact hexponent
    | some digits =>
      intro c hc
      cases hc
      decide
  have hletter : (exponentText l.exponent).head? ≠ some (ch '.') := by
    cases he : l.exponent with
    | none => exact fun hc => by cases hc
    | some e =>
      intro hc
      have hc' : e.1 = ch '.' := Option.some_inj.mp hc
      rcases (l.isExponent e (Option.mem_def.mpr he)).1 with h | h <;> rw [hc'] at h <;>
        exact absurd h (by decide)
  rw [exactStrtod, hnegative, hbody, takeWhile_digits l.isInt.isDigits.2 hptr,
    dropWhile_digits l.isInt.isDigits.2 hptr, magnitude]
  cases hf : l.fraction with
  | none =>
    rw [fractionText, nil_append, if_neg hletter, if_neg hletter, exponent_exactStrtod]
    rfl
  | some digits =>
    have hdigits := (l.isDigits_fraction digits (Option.mem_def.mpr hf)).2
    rw [fractionText, cons_append, List.head?_cons, if_pos rfl, if_pos rfl, tail_cons,
      takeWhile_digits hdigits hexponent, dropWhile_digits hdigits hexponent, exponent_exactStrtod]
    rfl

/-- The arithmetic in which nothing is rounded, with both zeros. -/
def exactNumbers : Numbers (Bool × ℚ) where
  fits := anyLength
  round negative magnitude := (negative, magnitude)
  strtod := exactStrtod
  ofInt i := (decide (i < 0), |(i : ℚ)|)
  toInt x := if ⌊signedValue x⌋ < 2 ^ 31 then ⌊signedValue x⌋ else 0
  equal x y := decide (signedValue x = signedValue y)
  strtod_text := exactStrtod_text
  ofInt_eq _ := rfl
  negativeZero_ne := nofun
  toInt_eq i x _ hlt h := by
    have hvalue : signedValue x = i := by
      rw [← of_decide_eq_true h, signedValue]
      by_cases hneg : i < 0
      · rw [if_pos (decide_eq_true hneg), abs_of_neg (Int.cast_lt_zero.mpr hneg), neg_neg]
      · rw [if_neg (by simpa using hneg), abs_of_nonneg (by exact_mod_cast not_lt.mp hneg)]
    rw [hvalue, Int.floor_intCast, if_pos hlt]
  toInt_lt x := by
    split
    · assumption
    · decide
  equal_negativeZero x := by
    simp [signedValue]

/-- The text `1;` is no JSON text, and it is read. -/
theorem not_parsesAsJSON_semicolon :
    ¬ParsesAsJSON (exactNumbers.sized true) [ch '1', ch ';'] := by
  have hint : IsInt [ch '1'] := .inr ⟨⟨nofun, forall_mem_of_all (by decide)⟩, by decide⟩
  let one : NumberLiteral := ⟨false, [ch '1'], none, none, hint, nofun, nofun⟩
  have hvalue : JSONValue (hasRoom true) .strictJSON [ch '1'] (.number one) :=
    @JSONValue.number _ _ one rfl
  have hsemicolon : HasSemicolon (hasRoom true) [ch '1', ch ';'] :=
    ⟨[ch '1'], [], rfl, nofun, .number one, ⟨[], [ch '1'], [], .number one⟩, ⟨nofun, nofun⟩,
      hvalue, rfl, rfl⟩
  exact fun h => ((parsesAsJSON_iff_fits _ _).mp h).1 hsemicolon

/-! ## The tokens of numbers -/

/-- The sums of the `int` loop, in the order of their evaluation, fit into an `int`. -/
def IntSumsFit (digits : List UChar) : Prop :=
  ∀ before digit behind, digits = before ++ digit :: behind →
    ∀ sum ∈ [intValue before * 10, intValue before * 10 + digit.toNat, intValue (before ++ [digit])],
      0 ≤ sum ∧ sum < 2 ^ 31

/-- The value of the token is that of the literal, whatever stands behind it and whatever the width
of the text's characters is, and the loop for short integers does not overflow. -/
def DependsOnLiteral : Prop :=
  (∀ is8Bit rest, l.Stops rest →
      lexNumber (exactNumbers.sized is8Bit).toNumberOperations (l.text ++ rest) =
        (.number (l.negative, l.magnitude), rest)) ∧
    (l.fraction = none → l.exponent = none → l.text.length < 10 → IntSumsFit l.int)

theorem digitsValue_append_one (digits : List UChar) (digit : UChar) :
    digitsValue (digits ++ [digit]) = digitsValue digits * 10 + (digit.toNat - (ch '0').toNat) := by
  simp [digitsValue]

theorem toNat_of_isASCIIDigit (h : isASCIIDigit c) : 48 ≤ c.toNat ∧ c.toNat ≤ 57 := by
  rw [isASCIIDigit, Bool.and_eq_true, decide_eq_true_iff, decide_eq_true_iff] at h
  exact ⟨UInt16.le_iff_toNat_le.mp h.1, UInt16.le_iff_toNat_le.mp h.2⟩

theorem digitsValue_lt (h : ∀ c ∈ digits, isASCIIDigit c) :
    digitsValue digits < 10 ^ digits.length := by
  induction digits using List.reverseRecOn with
  | nil => exact Nat.one_pos
  | append_singleton digits digit ih =>
    have hdigit := toNat_of_isASCIIDigit (h digit (by simp))
    have hzero : (ch '0').toNat = 48 := rfl
    have hdigits := ih fun c hc => h c (mem_append_left _ hc)
    rw [digitsValue_append_one, length_append, length_singleton]
    omega

theorem intSumsFit (h : ∀ c ∈ digits, isASCIIDigit c) (hlength : digits.length ≤ 9) :
    IntSumsFit digits := by
  rintro before digit behind rfl
  have hbefore : ∀ c ∈ before, isASCIIDigit c := fun c hc => h c (mem_append_left _ hc)
  have hdigit := toNat_of_isASCIIDigit (h digit (by simp))
  have hone : ∀ c ∈ before ++ [digit], isASCIIDigit c := fun c hc => h c (by
    rw [append_cons]
    exact mem_append_left _ hc)
  have hvalue : digitsValue before < 10 ^ 8 :=
    (digitsValue_lt hbefore).trans_le (Nat.pow_le_pow_right (by decide) (by simp at hlength; omega))
  rw [intValue_eq hbefore, intValue_eq hone, digitsValue_append_one]
  simp only [forall_mem_cons, not_mem_nil, false_imp_iff, implies_true, and_true]
  omega

/-- The sign of a token that was read. -/
def isNegative (read : Token (Bool × ℚ) × List UChar) : Bool :=
  match read.1 with
  | .number x => x.1
  | _ => false

/-- There is room for a number that an `int` can count. -/
theorem hasRoom_number_iff (is8Bit : Bool) :
    hasRoom is8Bit l.text = true ↔ l.text.length < 2 ^ 31 := by
  obtain ⟨d, ds, hint, hd, -⟩ := l.isInt.isDigits.head
  obtain ⟨c, cs, htext, hc⟩ : ∃ c cs, l.text = c :: cs ∧ (isASCIIDigit c ∨ c = ch '-') := by
    rw [text, signText, hint]
    cases l.negative with
    | true => exact ⟨_, _, rfl, .inr rfl⟩
    | false => exact ⟨_, _, rfl, .inl hd⟩
  have hquote : ¬(c = quotationMark ∨ c = apostrophe) := by
    rintro (rfl | rfl) <;> exact absurd hc (by decide)
  rw [htext, hasRoom, if_neg hquote, decide_eq_true_iff, length_cons]

/-- The token's value depends on the literal alone, unless the literal is `-0` or longer than an
`int` can count. -/
theorem dependsOnLiteral_iff :
    DependsOnLiteral l ↔ ¬l.IsNegativeZero ∧ l.text.length < 2 ^ 31 := by
  constructor
  · rintro ⟨htoken, -⟩
    have hstops : l.Stops [ch ' '] :=
      ⟨fun c hc _ => by cases hc; decide, fun c hc _ _ => by cases hc; decide,
        .inr fun c hc => by cases hc; decide⟩
    have hread := htoken true _ hstops
    have hroom : hasRoom true l.text = true := by
      rcases within_cases (exactNumbers.sized true) l.text
        (.number ((exactNumbers.sized true).readNumber [ch ' '] l)) [ch ' '] with herror | ⟨h, -⟩
      · rw [lexNumber, lexInt_of_stops _ hstops, herror] at hread
        cases hread
      · exact h
    refine ⟨fun hzero => ?_, (hasRoom_number_iff l true).mp hroom⟩
    rw [lexNumber_of_stops (exactNumbers.sized true) hstops hroom, Numbers.readNumber,
      if_pos ⟨hzero, by simp⟩] at hread
    have hnegative : false = l.negative := congrArg isNegative hread
    obtain ⟨d, ds, hint, hd, -⟩ := l.isInt.isDigits.head
    rw [IsNegativeZero, text, signText, ← hnegative, hint]
      at hzero
    have hhead : d = ch '-' := (List.cons.inj hzero).1
    exact absurd hd (by rw [hhead]; decide)
  · rintro ⟨hzero, hshort⟩
    refine ⟨fun is8Bit rest hstops => ?_, fun hf he hlength => intSumsFit l.isInt.isDigits.2 ?_⟩
    · rw [lexNumber_of_stops (exactNumbers.sized is8Bit) hstops
        ((hasRoom_number_iff l is8Bit).mpr hshort), readNumber_of_ne _ (.inl hzero)]
      rfl
    · rw [length_text] at hlength
      omega

/-- `-0` is a zero without its sign before other text. -/
theorem not_dependsOnLiteral_negativeZero :
    ¬DependsOnLiteral ⟨true, [ch '0'], none, none, .inl rfl, nofun, nofun⟩ := by
  rintro ⟨htoken, -⟩
  have hread :=
    htoken true [ch ','] ⟨fun c hc _ => by cases hc; decide, fun c hc _ _ => by cases hc; decide,
    .inr fun c hc => by cases hc; decide⟩
  have hsign : false = true := congrArg isNegative hread
  cases hsign

end WebKit.JavaScriptCore.LiteralParser
