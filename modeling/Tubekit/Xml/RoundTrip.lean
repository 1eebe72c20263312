import Tubekit.Xml.Document

/-!
# Parsing a printed element

`parse` gives an element back from its text, for the trees whose elements have children or a text
but not both. The lemmas are about a text cut at the index. The first child of an element is parsed
in the branch of `>`, the others in the branch of `<`; both leave the index behind the text of the
child, where the loop goes on.
-/

namespace Tubekit

open Lib Scan OrderedMap

namespace Xml

variable {s pre rest : List UInt8} {fuel : Nat}

/-- `[A-Za-z_][A-Za-z0-9_:-]*`. -/
def IsName (name : List UInt8) : Prop :=
  ∃ c tail, name = c :: tail ∧ isNameStart c = true ∧ ∀ d ∈ tail, isNameChar d = true

/-- The keys are names; the values are not empty and have no double quote. -/
def IsAttrs (attrs : Attrs) : Prop :=
  ∀ entry ∈ attrs.1, IsName entry.1 ∧ entry.2 ≠ [] ∧ quote ∉ entry.2

/-- Not empty, without `<`, and not beginning with white space. -/
def IsText (text : List UInt8) : Prop :=
  ∃ c tail, text = c :: tail ∧ isSpace c = false ∧ lt ∉ text

/-- The elements of the tree have children and no text, or a text and no children. -/
inductive Regular : Element → Prop
  | leaf {name text : List UInt8} {attrs : Attrs} (hname : IsName name) (hattrs : IsAttrs attrs)
      (htext : IsText text) : Regular (.mk name text attrs [])
  | node {name : List UInt8} {attrs : Attrs} {child : Element} {children : List Element}
      (hname : IsName name) (hattrs : IsAttrs attrs)
      (each : ∀ e ∈ child :: children, Regular e) : Regular (.mk name [] attrs (child :: children))

/-! ## Characters -/

theorem skipWhiteSpaces_eq {i : Nat} {c : UInt8} (pre rest : List UInt8) (hs : s = pre ++ c :: rest)
    (hi : i = pre.length) (hc : isSpace c = false) : skipWhiteSpaces s i = i := by
  subst hs hi
  exact skipWhile_stops pre (by simpa using hc)

theorem charAt_eq {i : Nat} {c : UInt8} (pre rest : List UInt8) (hs : s = pre ++ c :: rest)
    (hi : i = pre.length) : charAt s i = c := by
  subst hs hi
  exact charAt_append pre c rest

/-! ## The helpers -/

/-- A name is read up to a character that does not belong to it. -/
theorem parseElementName_eq {name : List UInt8} {i : Nat} (pre rest : List UInt8)
    (hs : s = pre ++ (name ++ rest)) (hi : i = pre.length) (hname : IsName name)
    (hrest : Stops isNameChar rest) : parseElementName s i = (name, i + name.length) := by
  obtain ⟨c, tail, rfl, hstart, htail⟩ := hname
  have hc : charAt s i = c := charAt_eq pre (tail ++ rest) hs hi
  have hskip : skipWhiteSpaces s i = i :=
    skipWhiteSpaces_eq pre (tail ++ rest) hs hi (isNameStart_ne hstart).1
  have hsplit : s = (pre ++ [c]) ++ (tail ++ rest) := by simp [hs]
  have hlen : i + 1 = (pre ++ [c]).length := by simp [hi]
  have hstop : skipWhile isNameChar s (i + 1) = i + 1 + tail.length := by
    rw [hsplit, hlen, skipWhile_append (pre ++ [c]) htail hrest]
  have htake : (s.drop (i + 1)).takeWhile isNameChar = tail := by
    rw [hsplit, hlen, List.drop_left, takeWhile_append htail hrest]
  rw [parseElementName, hskip, hc, if_pos hstart, hstop, htake, List.length_cons, Nat.add_assoc,
    Nat.add_comm 1]

theorem readUntil_eq {mark : UInt8} {text : List UInt8} {i : Nat} (pre rest : List UInt8)
    (hs : s = pre ++ (text ++ mark :: rest)) (hi : i = pre.length) (htext : mark ∉ text) :
    readUntil mark s i = .ok (text, i + text.length) := by
  have hrun : ∀ c ∈ text, (c != mark) = true := by
    intro c hc
    rw [bne_iff_ne]
    rintro rfl
    exact htext hc
  have hstop : Stops (· != mark) (mark :: rest) := by simp
  subst hs hi
  have hskip := skipWhile_append pre hrun hstop
  rw [readUntil, hskip, List.drop_left, takeWhile_append hrun hstop, if_pos (by simp)]

theorem parseElementText_eq {text : List UInt8} {i : Nat} (pre rest : List UInt8)
    (hs : s = pre ++ (text ++ lt :: rest)) (hi : i = pre.length) (htext : lt ∉ text)
    (hspace : Stops isSpace text) : parseElementText s i = .ok (text, i + text.length) := by
  have hskip : skipWhiteSpaces s i = i := by
    subst hs hi
    refine skipWhile_stops pre ?_
    cases text with
    | nil => exact stops_cons.2 (by decide)
    | cons c tail => exact stops_cons.2 (hspace c tail rfl)
  rw [parseElementText, hskip, readUntil_eq pre rest hs hi htext]

theorem parseElementAttrVal_eq {val : List UInt8} {i : Nat} (pre rest : List UInt8)
    (hs : s = pre ++ quote :: (val ++ quote :: rest)) (hi : i = pre.length) (hval : quote ∉ val) :
    parseElementAttrVal s i = .ok (val, i + val.length + 2) := by
  have hskip : skipWhiteSpaces s i = i := skipWhiteSpaces_eq pre _ hs hi (by decide)
  have hquote : charAt s i = quote := charAt_eq pre _ hs hi
  have hread : readUntil quote s (i + 1) = .ok (val, i + 1 + val.length) :=
    readUntil_eq (pre ++ [quote]) rest (by simp [hs]) (by simp [hi]) hval
  rw [parseElementAttrVal, hskip, if_neg (by simp [hquote]), hread]
  dsimp only
  congr 2
  omega

/-- Where an element begins there is neither a declaration nor a comment. -/
theorem parseProlog_eq {i : Nat} {c : UInt8} (pre rest : List UInt8) (hs : s = pre ++ lt :: c :: rest)
    (hi : i = pre.length) (hc : isNameStart c = true) : parseProlog s i = .ok i := by
  obtain ⟨-, -, -, -, -, hquestion, hbang⟩ := isNameStart_ne hc
  have hskip : skipWhiteSpaces s i = i := skipWhiteSpaces_eq pre _ hs hi (by decide)
  have hlt : charAt s i = lt := charAt_eq pre _ hs hi
  have hnext : charAt s (i + 1) = c := charAt_eq (pre ++ [lt]) rest (by simp [hs]) (by simp [hi])
  have hdecl : atDeclaration s i = false := by
    rw [atDeclaration, occursAt_cons (by decide), occursAt_cons (by decide), hnext]
    simp [hquestion]
  have hcomment : atComment s i = false := by
    rw [atComment, occursAt_cons (by decide), occursAt_cons (by decide), hnext]
    simp [hbang]
  have hlen : i ≠ s.length := by
    rw [hs, hi]
    simp
  rw [parseProlog, hskip, if_neg (by rw [hlt]; simp [hlen]; decide), hdecl]
  simp [hskip, hcomment]

/-! ## The loop -/

theorem attrText_length (entry : List UInt8 × List UInt8) :
    (attrText entry).length = entry.1.length + entry.2.length + 4 := by
  simp [attrText]
  omega

/-- The attributes are read one after another, up to the `>`. -/
theorem parseLoop_attrs (name : List UInt8) (entries : List (List UInt8 × List UInt8)) :
    ∀ (done all : Attrs) (pre rest : List UInt8) {i : Nat}, all.1 = done.1 ++ entries →
      (∀ entry ∈ entries, IsName entry.1 ∧ entry.2 ≠ [] ∧ quote ∉ entry.2) →
      s = pre ++ (entries.flatMap attrText ++ gt :: rest) → i = pre.length →
      parseLoop s name (fuel + entries.length) (.mk name [] done []) (skipWhiteSpaces s i) =
        parseLoop s name fuel (.mk name [] all []) (i + (entries.flatMap attrText).length) := by
  induction entries with
  | nil =>
    intro done all pre rest i hall _ hs hi
    have hdone : done = all := Subtype.ext (by simpa using hall.symm)
    rw [skipWhiteSpaces_eq pre rest hs hi (by decide), hdone]
    rfl
  | cons entry entries ih =>
    intro done all pre rest i hall hentries hs hi
    obtain ⟨key, val⟩ := entry
    obtain ⟨hkey, hne, hquote⟩ : IsName key ∧ val ≠ [] ∧ quote ∉ val := hentries (key, val) (by simp)
    obtain ⟨c, tail, hcons, hstart, -⟩ := id hkey
    obtain ⟨hspace, h0, hgt, hslash, hlt, -⟩ := isNameStart_ne hstart
    -- the text of this attribute, and what is behind it
    let more := entries.flatMap attrText ++ gt :: rest
    have hs' : s = pre ++ space :: (key ++ equals :: quote :: (val ++ quote :: more)) := by
      simp [hs, more, attrText]
    have hskip : skipWhiteSpaces s i = i + 1 := by
      have hrun := skipWhile_append (p := isSpace) pre
        (show ∀ d ∈ [space], isSpace d = true from List.forall_mem_singleton.2 rfl)
        (show Stops isSpace (key ++ equals :: quote :: (val ++ quote :: more)) by
          rw [hcons]
          simpa using hspace)
      rw [hs', hi]
      exact hrun
    have hchar : charAt s (i + 1) = c :=
      charAt_eq (pre ++ [space]) (tail ++ equals :: quote :: (val ++ quote :: more))
        (by simp [hs', hcons]) (by simp [hi])
    have hread : parseElementAttrKey s (i + 1) = (key, i + 1 + key.length) :=
      parseElementName_eq (pre ++ [space]) (equals :: quote :: (val ++ quote :: more))
        (by simp [hs']) (by simp [hi]) hkey (by simp; decide)
    have hskip' : skipWhiteSpaces s (i + 1 + key.length) = i + 1 + key.length :=
      skipWhiteSpaces_eq (pre ++ space :: key) (quote :: (val ++ quote :: more)) (c := equals)
        (by simp [hs']) (by simp [hi]; omega) (by decide)
    have hequals : charAt s (i + 1 + key.length) = equals :=
      charAt_eq (pre ++ space :: key) (quote :: (val ++ quote :: more)) (by simp [hs']) (by simp [hi]; omega)
    have hval : parseElementAttrVal s (i + 1 + key.length + 1) =
        .ok (val, i + 1 + key.length + 1 + val.length + 2) :=
      parseElementAttrVal_eq (pre ++ space :: (key ++ [equals])) more (by simp [hs'])
        (by simp [hi]; omega) hquote
    have hdone : (done.assign key val).1 = done.1 ++ [(key, val)] :=
      assign_append (Ordered.lt_of_append (m := (key, val)) (hall ▸ all.2))
    have hrec := ih (done.assign key val) all
      (pre ++ space :: (key ++ equals :: quote :: (val ++ [quote]))) rest
      (i := i + 1 + key.length + 1 + val.length + 2) (by simp [hall, hdone])
      (fun e he => hentries e (by simp [he])) (by simp [hs', more]) (by simp [hi]; omega)
    rw [hskip, List.length_cons, ← Nat.add_assoc, parseLoop, hchar, if_neg h0, if_neg hgt, if_neg hslash,
      if_neg hlt, hread]
    dsimp only
    rw [hskip', if_neg (by simp [hequals]), hval]
    dsimp only
    rw [Element.attr, if_pos hne, hrec]
    congr 1
    simp [attrText]
    omega

theorem endTag_length (name : List UInt8) : (endTag name).length = name.length + 3 := by
  simp [endTag]

/-- The end tag of the element ends the loop. -/
theorem parseLoop_endTag {name : List UInt8} {elem : Element} {i : Nat} (pre rest : List UInt8)
    (hs : s = pre ++ (endTag name ++ rest)) (hi : i = pre.length) :
    parseLoop s name (fuel + 1) elem i = .ok (elem, i + (endTag name).length) := by
  have hlt : charAt s i = lt := charAt_eq pre (slash :: name ++ [gt] ++ rest) (by simp [hs, endTag]) hi
  have hslash : charAt s (i + 1) = slash :=
    charAt_eq (pre ++ [lt]) (name ++ [gt] ++ rest) (by simp [hs, endTag]) (by simp [hi])
  have hfind : find s (endTag name) i = some i := by
    subst hs hi
    exact find_eq_start (by simp) (occursAt_append pre (endTag name) rest)
  rw [parseLoop, hlt, if_neg (by decide), if_neg (by decide), if_neg (by decide), if_pos rfl, hslash,
    if_pos rfl, hfind]
  simp

/-- The element is parsed from its text, wherever that stands. -/
def ParsesBack (e : Element) : Prop :=
  ∀ (s pre rest : List UInt8) (fuel i : Nat), s = pre ++ (toString e ++ rest) → i = pre.length →
    (toString e).length ≤ fuel → parse s fuel i = .ok (e, i + (toString e).length)

/-! ## Elements -/

theorem toString_eq {name : List UInt8} (hname : IsName name) (text : List UInt8) (attrs : Attrs)
    (children : List Element) :
    toString (.mk name text attrs children) =
      lt :: (name ++ (attrs.1.flatMap attrText ++ gt ::
        ((if children = [] then text else toStrings children) ++ endTag name))) := by
  obtain ⟨c, tail, rfl, -⟩ := hname
  cases children <;> simp [toString, toStrings]

/-- The text of an element of such a tree begins with `<` and the first character of a name. -/
theorem Regular.toString_eq_cons {e : Element} (h : Regular e) :
    ∃ c tail, toString e = lt :: c :: tail ∧ isNameStart c = true := by
  cases h with
  | leaf hname hattrs htext =>
    obtain ⟨c, tail, rfl, hstart, -⟩ := id hname
    exact ⟨c, _, toString_eq hname _ _ _, hstart⟩
  | node hname hattrs each =>
    obtain ⟨c, tail, rfl, hstart, -⟩ := id hname
    exact ⟨c, _, toString_eq hname _ _ _, hstart⟩

/-- From the `<` of an element to the `>` of its start tag. -/
theorem parse_startTag {name : List UInt8} {attrs : Attrs} {i : Nat} (pre rest : List UInt8)
    (hs : s = pre ++ lt :: (name ++ (attrs.1.flatMap attrText ++ gt :: rest))) (hi : i = pre.length)
    (hname : IsName name) (hattrs : IsAttrs attrs) :
    parse s (fuel + attrs.1.length + 1) i =
      parseLoop s name fuel (.mk name [] attrs [])
        (i + 1 + name.length + (attrs.1.flatMap attrText).length) := by
  obtain ⟨c, tail, hcons, hstart, -⟩ := id hname
  have hprolog : parseProlog s i = .ok i :=
    parseProlog_eq pre (tail ++ (attrs.1.flatMap attrText ++ gt :: rest)) (by simp [hs, hcons]) hi hstart
  have hlt : charAt s i = lt := charAt_eq pre _ hs hi
  have hnext : charAt s (i + 1) = c :=
    charAt_eq (pre ++ [lt]) (tail ++ (attrs.1.flatMap attrText ++ gt :: rest)) (by simp [hs, hcons])
      (by simp [hi])
  have hstop : Stops isNameChar (attrs.1.flatMap attrText ++ gt :: rest) := by
    cases attrs.1 with
    | nil => exact stops_cons.2 (by decide)
    | cons entry entries => exact stops_cons.2 (by decide)
  have hread : parseElementName s (i + 1) = (name, i + 1 + name.length) :=
    parseElementName_eq (pre ++ [lt]) _ (by simp [hs]) (by simp [hi]) hname hstop
  have hloop : parseLoop s name (fuel + attrs.1.length) (.mk name [] .empty [])
      (skipWhiteSpaces s (i + 1 + name.length)) = parseLoop s name fuel (.mk name [] attrs [])
        (i + 1 + name.length + (attrs.1.flatMap attrText).length) :=
    parseLoop_attrs name attrs.1 .empty attrs (pre ++ lt :: name) rest rfl hattrs (by simp [hs])
      (by simp [hi]; omega)
  rw [parse, hprolog]
  dsimp only
  rw [if_pos ⟨hlt, by rw [hnext]; exact hstart⟩, hread]
  exact hloop

/-- The children of an element but the first, up to its end tag. -/
theorem parseLoop_children {name : List UInt8} {attrs : Attrs} (children : List Element) :
    ∀ (done : List Element) (pre rest : List UInt8) {i fuel : Nat},
      (∀ e ∈ children, Regular e ∧ ParsesBack e) →
      s = pre ++ (toStrings children ++ (endTag name ++ rest)) → i = pre.length →
      (toStrings children).length + 1 ≤ fuel →
      parseLoop s name fuel (.mk name [] attrs done) (skipWhiteSpaces s i) =
        .ok (.mk name [] attrs (done ++ children),
          i + (toStrings children).length + (endTag name).length) := by
  induction children with
  | nil =>
    intro done pre rest i fuel _ hs hi hfuel
    obtain ⟨fuel, rfl⟩ := Nat.exists_eq_succ_of_ne_zero (show fuel ≠ 0 by omega)
    have hskip : skipWhiteSpaces s i = i :=
      skipWhiteSpaces_eq pre (slash :: name ++ [gt] ++ rest) (c := lt)
        (by simp [hs, toStrings, endTag]) hi (by decide)
    rw [hskip, parseLoop_endTag pre rest (by simp [hs, toStrings]) hi]
    simp [toStrings]
  | cons child children ih =>
    intro done pre rest i fuel hall hs hi hfuel
    obtain ⟨hregular, hback⟩ := hall child (by simp)
    obtain ⟨c, tail, hcons, hstart⟩ := hregular.toString_eq_cons
    obtain ⟨-, -, -, hslash, -, -, hbang⟩ := isNameStart_ne hstart
    rw [toStrings, List.length_append] at hfuel
    obtain ⟨fuel, rfl⟩ := Nat.exists_eq_succ_of_ne_zero (show fuel ≠ 0 by omega)
    let more := toStrings children ++ (endTag name ++ rest)
    have hs' : s = pre ++ (toString child ++ more) := by simp [hs, toStrings, more]
    have hpos : 0 < (toString child).length := by simp [hcons]
    have hskip : skipWhiteSpaces s i = i :=
      skipWhiteSpaces_eq pre (c :: tail ++ more) (c := lt) (by simp [hs', hcons]) hi (by decide)
    have hlt : charAt s i = lt := charAt_eq pre (c :: tail ++ more) (by simp [hs', hcons]) hi
    have hnext : charAt s (i + 1) = c :=
      charAt_eq (pre ++ [lt]) (tail ++ more) (by simp [hs', hcons]) (by simp [hi])
    have hcomment : atComment s i = false := by
      rw [atComment, occursAt_cons (by decide), occursAt_cons (by decide), hnext]
      simp [hbang]
    have hchild := hback s pre more fuel i hs' hi (by omega)
    have hrec := ih (done ++ [child]) (pre ++ toString child) rest (i := i + (toString child).length)
      (fun e he => hall e (by simp [he])) (by simp [hs', more]) (by simp [hi]) (show _ ≤ fuel by omega)
    rw [hskip, parseLoop, hlt, if_neg (by decide), if_neg (by decide), if_neg (by decide), if_pos rfl,
      hnext, if_neg hslash, hcomment, hchild]
    simp only [Bool.false_eq_true, if_false, Element.append]
    rw [hrec, toStrings, List.length_append]
    simp
    omega

/-- There are fewer attributes than characters in their text. -/
theorem length_le_attrsText (entries : List (List UInt8 × List UInt8)) :
    entries.length ≤ (entries.flatMap attrText).length := by
  induction entries with
  | nil => simp
  | cons entry entries ih =>
    rw [List.flatMap_cons, List.length_append, List.length_cons, attrText_length]
    omega

theorem parsesBack_leaf {name text : List UInt8} {attrs : Attrs} (hname : IsName name)
    (hattrs : IsAttrs attrs) (htext : IsText text) : ParsesBack (.mk name text attrs []) := by
  intro s pre rest fuel i hs hi hfuel
  obtain ⟨c, tail, hcons, hspace, hlt⟩ := htext
  have hne : text ≠ [] := by simp [hcons]
  have hentries := length_le_attrsText attrs.1
  rw [toString_eq hname, if_pos rfl] at hs hfuel ⊢
  simp only [List.length_cons, List.length_append, endTag_length] at hfuel ⊢
  obtain ⟨n, rfl⟩ : ∃ n, fuel = n + 2 + attrs.1.length + 1 :=
    ⟨fuel - (attrs.1.length + 3), by omega⟩
  -- the text before the `>` of the start tag
  let start := pre ++ lt :: (name ++ attrs.1.flatMap attrText)
  have hs' : s = start ++ gt :: (text ++ (endTag name ++ rest)) := by simp [hs, start]
  let j := i + 1 + name.length + (attrs.1.flatMap attrText).length
  have hj : j = start.length := by
    simp [j, start, hi]
    omega
  have hgt : charAt s j = gt := charAt_eq start _ hs' hj
  have hread : parseElementText s (j + 1) = .ok (text, j + 1 + text.length) :=
    parseElementText_eq (start ++ [gt]) (slash :: name ++ [gt] ++ rest) (by simp [hs', endTag])
      (by simp [hj]) hlt (by simpa [hcons] using hspace)
  have hskip : skipWhiteSpaces s (j + 1 + text.length) = j + 1 + text.length :=
    skipWhiteSpaces_eq (start ++ gt :: text) (slash :: name ++ [gt] ++ rest) (c := lt)
      (by simp [hs', endTag]) (by simp [hj]; omega) (by decide)
  have hend : parseLoop s name (n + 1) (.mk name text attrs []) (j + 1 + text.length) =
      .ok (.mk name text attrs [], j + 1 + text.length + (endTag name).length) :=
    parseLoop_endTag (start ++ gt :: text) rest (by simp [hs']) (by simp [hj]; omega)
  rw [parse_startTag pre (text ++ (endTag name ++ rest)) (by simp [hs]) hi hname hattrs]
  change parseLoop s name (n + 2) _ j = _
  rw [parseLoop, hgt, if_neg (by decide), if_pos rfl, hread]
  dsimp only
  rw [if_pos hne, hskip, hskip, Element.setText, hend, endTag_length]
  simp [j]
  omega

theorem parsesBack_node {name : List UInt8} {attrs : Attrs} {child : Element} {children : List Element}
    (hname : IsName name) (hattrs : IsAttrs attrs)
    (hall : ∀ e ∈ child :: children, Regular e ∧ ParsesBack e) :
    ParsesBack (.mk name [] attrs (child :: children)) := by
  intro s pre rest fuel i hs hi hfuel
  obtain ⟨hregular, hback⟩ := hall child (by simp)
  obtain ⟨c, tail, hcons, hstart⟩ := hregular.toString_eq_cons
  have hentries := length_le_attrsText attrs.1
  rw [toString_eq hname, if_neg (by simp), toStrings] at hs hfuel ⊢
  simp only [List.length_cons, List.length_append, endTag_length] at hfuel ⊢
  obtain ⟨n, rfl⟩ : ∃ n, fuel = n + 1 + attrs.1.length + 1 :=
    ⟨fuel - (attrs.1.length + 2), by omega⟩
  let start := pre ++ lt :: (name ++ attrs.1.flatMap attrText)
  let more := toStrings children ++ (endTag name ++ rest)
  have hs' : s = start ++ gt :: (toString child ++ more) := by simp [hs, start, more]
  let j := i + 1 + name.length + (attrs.1.flatMap attrText).length
  have hj : j = start.length := by
    simp [j, start, hi]
    omega
  have hgt : charAt s j = gt := charAt_eq start _ hs' hj
  have hread : parseElementText s (j + 1) = .ok ([], j + 1) :=
    parseElementText_eq (start ++ [gt]) (c :: tail ++ more) (by simp [hs', hcons]) (by simp [hj])
      (by simp) (by simp)
  have hskip : skipWhiteSpaces s (j + 1) = j + 1 :=
    skipWhiteSpaces_eq (start ++ [gt]) (c :: tail ++ more) (c := lt) (by simp [hs', hcons])
      (by simp [hj]) (by decide)
  have hchild := hback s (start ++ [gt]) more n (j + 1) (by simp [hs']) (by simp [hj]) (by omega)
  have hpos : 0 < (toString child).length := by simp [hcons]
  have hloop : parseLoop s name n (.mk name [] attrs [child])
      (skipWhiteSpaces s (j + 1 + (toString child).length)) = .ok (.mk name [] attrs ([child] ++ children),
        j + 1 + (toString child).length + (toStrings children).length + (endTag name).length) :=
    parseLoop_children children [child] (start ++ gt :: toString child) rest
      (fun e he => hall e (by simp [he])) (by simp [hs', more]) (by simp [hj]; omega) (by omega)
  rw [parse_startTag pre (toString child ++ more) (by simp [hs, more]) hi hname hattrs]
  change parseLoop s name (n + 1) _ j = _
  rw [parseLoop, hgt, if_neg (by decide), if_pos rfl, hread]
  dsimp only
  rw [if_neg (by simp), hskip, hchild]
  simp only [Element.append, List.nil_append]
  rw [hloop, endTag_length]
  simp [j]
  omega

theorem parsesBack_of_regular {e : Element} (h : Regular e) : ParsesBack e := by
  induction h with
  | leaf hname hattrs htext => exact parsesBack_leaf hname hattrs htext
  | node hname hattrs each ih => exact parsesBack_node hname hattrs fun e he => ⟨each e he, ih e he⟩

/-- The parser gives a tree back from the text it is printed as. The fuel may be any that is at
least the length of the text, so the parser ends. -/
theorem parse_toString_of_regular (e : Element) (h : Regular e) (fuel : Nat) (hfuel : (toString e).length ≤ fuel) :
    parse (toString e) fuel 0 = .ok (e, (toString e).length) := by
  have hback := parsesBack_of_regular h (toString e) [] [] fuel 0 (by simp) rfl hfuel
  rwa [Nat.zero_add] at hback

/-- `<a k="v"><b>x</b><b>y z</b></a>`. -/
def sample : Element :=
  .mk [97] [] ⟨[([107], [118])], List.pairwise_singleton _ _⟩
    [.mk [98] [120] .empty [], .mk [98] [121, 32, 122] .empty []]

theorem sample_regular : Regular sample := by
  have hb : IsName [98] := ⟨98, [], rfl, by decide, by simp⟩
  have hempty : IsAttrs .empty := by simp [IsAttrs, Attrs.empty]
  refine .node ⟨97, [], rfl, by decide, by simp⟩ ?_ ?_
  · intro entry hentry
    obtain rfl := List.mem_singleton.1 hentry
    exact ⟨⟨107, [], rfl, by decide, by simp⟩, by decide, by decide⟩
  · intro e he
    rcases List.mem_cons.1 he with rfl | he
    · exact .leaf hb hempty ⟨120, [], rfl, by decide, by simp [lt]⟩
    · obtain rfl := List.mem_singleton.1 he
      exact .leaf hb hempty ⟨121, [32, 122], rfl, by decide, by simp [lt]⟩

theorem parse_toString_of_regular_sample : Regular sample ∧ parse (toString sample) 40 0 = .ok (sample, 31) :=
  ⟨sample_regular, parse_toString_of_regular sample sample_regular 40 (by decide)⟩

end Xml

end Tubekit
