import Tubekit.Lib.BlockStream
import Tubekit.Lib.TextLines
import Tubekit.Utility.Base64Coding

/-!
# There and back in base64

The decoder undoes the encoder, for both alphabets, and with `remove_linebreaks` also the encoders
that break lines. These cut the text into lines of the given length (`lines_insertLinebreaks`);
without `remove_linebreaks` the decoder throws at the first line break.
-/

namespace Tubekit.Base64

open Lib Radix BlockStream

variable {url : Bool} {bytes : List Byte}

theorem posOfChar_charAt (url : Bool) {d : Nat} (hd : d < 64) : posOfChar (charAt url d) = .ok d := by
  have hall : ∀ d : Fin 64, posOfChar (charAt url d) = .ok d.val := by
    cases url <;> decide
  exact hall ⟨d, hd⟩

theorem sextets_lt : ∀ d ∈ sextets bytes, d < 64 := by
  intro d hd
  exact digits_lt (by omega) hd

theorem reads_charAt (url : Bool) {ds : List Nat} (hds : ∀ d ∈ ds, d < 64) :
    Reads (ds.map (charAt url)) ds := by
  induction ds with
  | nil => exact .nil
  | cons d ds ih =>
    obtain ⟨hd, hds⟩ := List.forall_mem_cons.mp hds
    exact .cons (posOfChar_charAt url hd) (ih hds)

theorem isPadding_trailingChar (url : Bool) : isPadding (trailingChar url) = true := by
  cases url <;> rfl

theorem decodeLoop_text (url : Bool) (bytes : List Byte) :
    decodeLoop (text url bytes) = .ok bytes := by
  have hlength : (sextets bytes).length = digitCount bytes.length := length_digits _ _
  have hcount : (sextets bytes).length % 4 ≠ 1 := by
    rw [hlength, digitCount]
    omega
  have hpads : Pads (sextets bytes).length
      (List.replicate ((3 - bytes.length % 3) % 3) (trailingChar url)) := by
    refine ⟨?_, ?_⟩
    · rw [List.all_replicate, isPadding_trailingChar]
      simp
    · by_cases hzero : bytes.length % 3 = 0
      · left
        rw [hzero]
        rfl
      · right
        rw [hlength, digitCount_mod hzero, List.length_replicate]
        omega
  rw [text, decodeLoop_reads (reads_charAt url sextets_lt) hcount hpads, octets_sextets]

theorem lineBreak_not_mem_text (url : Bool) (bytes : List Byte) : lineBreak ∉ text url bytes := by
  intro hmem
  rcases List.mem_append.mp hmem with hchar | hpad
  · obtain ⟨d, hd, hc⟩ := List.mem_map.mp hchar
    have hpos := posOfChar_charAt url (sextets_lt d hd)
    rw [hc] at hpos
    cases hpos
  · have hc := List.eq_of_mem_replicate hpad
    cases url <;> cases hc

theorem filter_text (url : Bool) (bytes : List Byte) :
    ((text url bytes).filter fun c => c ≠ lineBreak) = text url bytes := by
  apply List.filter_eq_self.mpr
  intro c hc
  have hne : c ≠ lineBreak := ne_of_mem_of_not_mem hc (lineBreak_not_mem_text url bytes)
  exact decide_eq_true hne

/-- The decoder undoes the encoder, whichever alphabet was taken. -/
theorem decode_of_encode {rounds : Nat} {encoded : List Byte}
    (h : encode rounds bytes url = some encoded) (removeLinebreaks : Bool) :
    decode encoded removeLinebreaks = .ok bytes := by
  rw [eq_text_of_encode h]
  cases removeLinebreaks with
  | false => exact decodeLoop_text url bytes
  | true =>
    rw [decode, if_pos rfl, filter_text]
    exact decodeLoop_text url bytes

theorem encode_zeros (url : Bool) : encode 70 (List.replicate 49 0) url =
    some (text url (List.replicate 49 0)) :=
  encode_eq _ _ (by decide)

theorem decode_of_encode_zeros : ∃ encoded, encode 70 (List.replicate 49 0) true = some encoded ∧
    decode encoded true = .ok (List.replicate 49 0) :=
  ⟨_, encode_zeros true, decode_of_encode (encode_zeros true) true⟩

/-! ## Line breaks -/

/-- The lines of a text in lines of this length. -/
def brokenLines (distance : LineLength) (str : List Byte) : List (List Byte) :=
  blocks distance.1 str ++
    if remainder distance.1 str = [] then [] else [remainder distance.1 str]

theorem insertFrom_append (distance : LineLength) (front str : List Byte) (pos : Nat) :
    insertFrom distance (front ++ str) (front.length + pos) = front ++ insertFrom distance str pos := by
  induction str, pos using insertFrom.induct distance with
  | case1 str pos hpos ih =>
    have hlt : front.length + pos < (front ++ str).length := by
      rw [List.length_append]
      omega
    have htake : (front ++ str).take (front.length + pos) = front ++ str.take pos :=
      List.take_length_add_append pos
    have hdrop : (front ++ str).drop (front.length + pos) = str.drop pos :=
      List.drop_length_add_append pos
    rw [insertFrom, if_pos hlt, htake, hdrop, List.append_assoc, Nat.add_assoc, ih]
    conv_rhs => rw [insertFrom, if_pos hpos]
  | case2 str pos hpos =>
    have hle : ¬front.length + pos < (front ++ str).length := by
      rw [List.length_append]
      omega
    rw [insertFrom, if_neg hle, insertFrom, if_neg hpos]

/-- The first line, and the rest. -/
theorem insertFrom_eq (distance : LineLength) (str : List Byte) :
    insertFrom distance str distance.1 =
      if distance.1 < str.length then
        str.take distance.1 ++ lineBreak :: insertFrom distance (str.drop distance.1) distance.1
      else str := by
  rw [insertFrom]
  split
  · rename_i hlt
    have hlength : (str.take distance.1 ++ [lineBreak]).length = distance.1 + 1 := by
      rw [List.length_append, List.length_take, List.length_singleton]
      omega
    have happend := insertFrom_append distance (str.take distance.1 ++ [lineBreak])
      (str.drop distance.1) distance.1
    rw [hlength, List.append_assoc, List.append_assoc, List.singleton_append,
      List.singleton_append] at happend
    rw [← happend, Nat.add_comm]
  · rfl

/-- The text is cut into lines of the given length and a last one that is not longer. -/
theorem lines_insertFrom (distance : LineLength) {str : List Byte} (h : lineBreak ∉ str) :
    TextLines.lines (insertFrom distance str distance.1) = brokenLines distance str := by
  induction str using block_induction distance.2 with
  | short str hlt => 
    rw [insertFrom_eq, if_neg (by omega), brokenLines, blocks_of_lt hlt, remainder_of_lt hlt]
    split
    · rename_i hnil
      rw [hnil]
      rfl
    · rename_i hne
      exact TextLines.lines_of_not_mem hne h
  | block line str hline ih =>
    rw [List.mem_append, not_or] at h
    obtain ⟨hfront, hback⟩ := h
    have hpos := distance.2
    have hbroken : brokenLines distance (line ++ str) = line :: brokenLines distance str := by
      rw [brokenLines, blocks_append hpos hline, remainder_append hpos hline, List.cons_append,
        brokenLines]
    rw [insertFrom_eq, hbroken]
    by_cases hnil : str = []
    · subst hnil
      have hle : ¬distance.1 < (line ++ []).length := by
        rw [List.append_nil]
        omega
      have hne : line ≠ [] := List.ne_nil_of_length_pos (by omega)
      rw [if_neg hle, List.append_nil, TextLines.lines_of_not_mem hne hfront, brokenLines,
        blocks_of_lt hpos, remainder_of_lt hpos]
      rfl
    · have hlt : distance.1 < (line ++ str).length := by
        have hlen := List.length_pos_of_ne_nil hnil
        rw [List.length_append]
        omega
      rw [if_pos hlt, List.take_left' hline, List.drop_left' hline]
      exact (TextLines.lines_append hfront _).trans (congrArg (line :: ·) (ih hback))

/-- Without the line breaks it is the text again. -/
theorem filter_insertFrom (distance : LineLength) {str : List Byte} (h : lineBreak ∉ str) :
    ((insertFrom distance str distance.1).filter fun c => c ≠ lineBreak) = str := by
  have hkeep {xs : List Byte} (hxs : lineBreak ∉ xs) : (xs.filter fun c => c ≠ lineBreak) = xs := by
    apply List.filter_eq_self.mpr
    intro c hc
    have hne : c ≠ lineBreak := ne_of_mem_of_not_mem hc hxs
    exact decide_eq_true hne
  induction str using block_induction distance.2 with
  | short str hlt =>
    rw [insertFrom_eq, if_neg (by omega), hkeep h]
  | block line str hline ih =>
    have hboth := h
    rw [List.mem_append, not_or] at h
    rw [insertFrom_eq]
    split
    · rw [List.take_left' hline, List.drop_left' hline, List.filter_append,
        List.filter_cons_of_neg (by simp), ih h.2, hkeep h.1]
    · exact hkeep hboth

theorem insertLinebreaks_eq (str : List Byte) (distance : LineLength) :
    insertLinebreaks str distance = insertFrom distance str distance.1 := by
  unfold insertLinebreaks
  split
  · rename_i hzero
    rw [List.length_eq_zero_iff] at hzero
    have hle : ¬distance.1 < ([] : List Byte).length := Nat.not_lt_zero _
    rw [hzero, insertFrom_eq, if_neg hle]
  · rfl

/-- `encode_pem` and `encode_mime`: the lines, and the way back. -/
theorem encodeWithLineBreaks_spec {distance : LineLength} {rounds : Nat} {encoded : List Byte}
    (h : encodeWithLineBreaks distance rounds bytes = some encoded) :
    TextLines.lines encoded = brokenLines distance (text false bytes) ∧
      decode encoded true = .ok bytes := by
  obtain ⟨plain, hplain, hencoded⟩ := Option.map_eq_some_iff.mp h
  have htext := eq_text_of_encode hplain
  have hbreak := lineBreak_not_mem_text false bytes
  rw [← hencoded, insertLinebreaks_eq, htext]
  refine ⟨lines_insertFrom distance hbreak, ?_⟩
  rw [decode, if_pos rfl, filter_insertFrom distance hbreak]
  exact decodeLoop_text false bytes

theorem encodePem_zeros : encodePem 70 (List.replicate 49 0) =
    some (insertLinebreaks (text false (List.replicate 49 0)) pemLine) := by
  rw [encodePem, encodeWithLineBreaks, encode_zeros]
  rfl

theorem encodeWithLineBreaks_spec_zeros : ∃ encoded,
    encodePem 70 (List.replicate 49 0) = some encoded ∧
      decode encoded true = .ok (List.replicate 49 0) :=
  ⟨_, encodePem_zeros, (encodeWithLineBreaks_spec encodePem_zeros).2⟩

theorem length_text (url : Bool) (bytes : List Byte) :
    (text url bytes).length = 4 * ((bytes.length + 2) / 3) := by
  have hsextets : (sextets bytes).length = digitCount bytes.length := length_digits _ _
  rw [text, List.length_append, List.length_map, hsextets, List.length_replicate, digitCount]
  omega

/-- A text of several lines is no text for the decoder that keeps the line breaks. -/
theorem decode_broken {distance : LineLength} (hfour : distance.1 % 4 = 0)
    (hlong : distance.1 < (text false bytes).length) :
    decode (insertLinebreaks (text false bytes) distance) false = .error .runtimeError := by
  have hlength := length_text false bytes
  have hsextets : (sextets bytes).length = digitCount bytes.length := length_digits _ _
  have hdigits : distance.1 ≤ (sextets bytes).length := by
    rw [hsextets, digitCount]
    omega
  have htake : (text false bytes).take distance.1 =
      ((sextets bytes).take distance.1).map (charAt false) := by
    rw [text, List.take_append_of_le_length (by rwa [List.length_map]), List.map_take]
  have hreads : Reads ((text false bytes).take distance.1) ((sextets bytes).take distance.1) := by
    rw [htake]
    apply reads_charAt
    intro d hd
    exact sextets_lt d (List.mem_of_mem_take hd)
  have hcount : ((sextets bytes).take distance.1).length % 4 = 0 := by
    rw [List.length_take, Nat.min_eq_left hdigits]
    exact hfour
  rw [insertLinebreaks_eq, insertFrom_eq, if_pos hlong, decode, if_neg Bool.false_ne_true,
    decodeLoop_append hreads hcount]
  have hne : insertFrom distance ((text false bytes).drop distance.1) distance.1 ≠ [] := by
    rw [insertFrom_eq]
    split
    · exact List.append_ne_nil_of_right_ne_nil _ (List.cons_ne_nil _ _)
    · apply List.ne_nil_of_length_pos
      rw [List.length_drop]
      omega
  obtain ⟨c, more, hrest⟩ := List.exists_cons_of_ne_nil hne
  have hbreak : posOfChar lineBreak = .error .runtimeError := rfl
  rw [hrest, decodeLoop_error hbreak]
  rfl

/-- Without `remove_linebreaks` the decoder takes a text with line breaks only if it has one line. -/
theorem decode_encodeWithLineBreaks {distance : LineLength} (hfour : distance.1 % 4 = 0)
    {rounds : Nat} {encoded : List Byte}
    (h : encodeWithLineBreaks distance rounds bytes = some encoded) :
    decode encoded false =
      if 4 * ((bytes.length + 2) / 3) ≤ distance.1 then .ok bytes else .error .runtimeError := by
  obtain ⟨plain, hplain, hencoded⟩ := Option.map_eq_some_iff.mp h
  rw [← hencoded, eq_text_of_encode hplain, ← length_text false bytes]
  split
  · rename_i hshort
    rw [insertLinebreaks_eq, insertFrom_eq, if_neg (by omega)]
    exact decodeLoop_text false bytes
  · rename_i hlong
    exact decode_broken hfour (by omega)

/-- In lines of 64 characters these bytes take two. -/
theorem decode_encodeWithLineBreaks_zeros : ∃ encoded,
    encodePem 70 (List.replicate 49 0) = some encoded ∧
      decode encoded false = .error .runtimeError :=
  ⟨_, encodePem_zeros, decode_encodeWithLineBreaks rfl encodePem_zeros⟩

end Tubekit.Base64
