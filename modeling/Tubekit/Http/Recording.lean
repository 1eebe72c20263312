import Mathlib.Data.List.Perm.Basic
import Mathlib.Algebra.Order.BigOperators.Group.List
import Tubekit.Http.Parser

/-!
# What is recorded of a request

The callbacks of `http_task` and of `websocket_task` keep the last piece of a url and of a
field name, and they add every piece of a value as a value of its own. `Recorded.add` is that,
and it is compared with `Fragments.add`, which puts the pieces together.

The two agree exactly when each item came in one piece. For the headers this is an argument by
counting: a map determines how many values it has, and how long its keys are in total.
-/

namespace Tubekit

/-! ## Header maps -/

namespace HeaderMap

/-- The values under a key, in order. -/
def values (k : Bytes) (l : List Header) : List Bytes := (l.filter fun h => h.1 = k).map (·.2)

theorem foldl_addHeader (l : List Header) (m : HeaderMap) (k : Bytes) :
    l.foldl (fun m h => m.addHeader h.1 h.2) m k =
      if values k l = [] then m k else some ((m k).getD [] ++ values k l) := by
  induction l generalizing m with
  | nil => rfl
  | cons h l ih =>
    rw [List.foldl_cons, ih]
    by_cases hk : h.1 = k
    · have hcons : values k (h :: l) = h.2 :: values k l := by simp [values, hk]
      have hadd : m.addHeader h.1 h.2 k = some ((m k).getD [] ++ [h.2]) := by simp [addHeader, hk]
      rw [hcons, hadd]
      by_cases hv : values k l = [] <;> simp [hv]
    · have hcons : values k (h :: l) = values k l := by simp [values, hk]
      have hadd : m.addHeader h.1 h.2 k = m k := by
        unfold addHeader
        rw [if_neg (Ne.symm hk)]
      rw [hcons, hadd]

theorem values_of_ofList_eq {l l' : List Header} (h : ofList l = ofList l') (k : Bytes) :
    values k l = values k l' := by
  have hk := congrFun h k
  simp only [ofList, foldl_addHeader, Option.getD_none, List.nil_append] at hk
  by_cases hv : values k l = [] <;> by_cases hv' : values k l' = [] <;> simp_all

theorem count_eq (l : List Header) (h : Header) : l.count h = (values h.1 l).count h.2 := by
  induction l with
  | nil => rfl
  | cons a l ih =>
    obtain ⟨k, v⟩ := h
    obtain ⟨k', v'⟩ := a
    by_cases hk : k' = k
    · subst hk
      simp only [List.count_cons, ih, values, List.filter_cons, decide_true, if_true,
        List.map_cons]
      simp
    · have hne : (k', v') ≠ (k, v) := fun heq => hk (congrArg Prod.fst heq)
      rw [List.count_cons_of_ne hne, ih]
      simp [values, hk]

/-- Two lists of headers with the same map have the same headers. -/
theorem perm_of_ofList_eq {l l' : List Header} (h : ofList l = ofList l') : l.Perm l' := by
  rw [List.perm_iff_count]
  intro a
  rw [count_eq, count_eq, values_of_ofList_eq h]

theorem ofList_append_singleton (l : List Header) (h : Header) :
    ofList (l ++ [h]) = (ofList l).addHeader h.1 h.2 := by
  simp [ofList]

end HeaderMap

/-! ## Pieces -/

/-- All pieces but the last are empty. -/
def OnePiece (pieces : List Bytes) : Prop := ∀ piece ∈ pieces.dropLast, piece = []

instance (pieces : List Bytes) : Decidable (OnePiece pieces) :=
  inferInstanceAs (Decidable (∀ piece ∈ pieces.dropLast, piece = []))

theorem flatten_eq_dropLast_append (pieces : List Bytes) :
    pieces.flatten = pieces.dropLast.flatten ++ pieces.getLastD [] := by
  rcases List.eq_nil_or_concat pieces with rfl | ⟨init, piece, rfl⟩
  · rfl
  · simp

theorem length_last_le (pieces : List Bytes) :
    (pieces.getLastD []).length ≤ pieces.flatten.length := by
  rw [flatten_eq_dropLast_append pieces, List.length_append]
  omega

theorem onePiece_iff (pieces : List Bytes) :
    OnePiece pieces ↔ pieces.getLastD [] = pieces.flatten := by
  rw [flatten_eq_dropLast_append pieces, eq_comm, List.append_left_eq_self, List.flatten_eq_nil_iff]
  rfl

theorem onePiece_of_length_eq {pieces : List Bytes}
    (h : (pieces.getLastD []).length = pieces.flatten.length) : OnePiece pieces := by
  rw [flatten_eq_dropLast_append pieces, List.length_append] at h
  have hnil : pieces.dropLast.flatten = [] := List.eq_nil_of_length_eq_zero (by omega)
  exact List.flatten_eq_nil_iff.mp hnil

/-- The headers that are recorded for the pieces of one header. -/
def recordedHeaders (h : List Bytes × List Bytes) : List Header :=
  h.2.map fun value => (h.1.getLastD [], value)

/-- The header that the pieces report. -/
def reportedHeader (h : List Bytes × List Bytes) : Header := (h.1.flatten, h.2.flatten)

theorem length_recorded (hs : List (List Bytes × List Bytes)) (hne : ∀ h ∈ hs, h.2 ≠ []) :
    hs.length ≤ (hs.flatMap recordedHeaders).length ∧
      ((hs.flatMap recordedHeaders).length = hs.length → ∀ h ∈ hs, h.2.length = 1) := by
  induction hs with
  | nil => simp
  | cons h hs ih =>
    obtain ⟨hle, heq⟩ := ih fun h' hm => hne h' (by simp [hm])
    have hpos : 0 < h.2.length := List.length_pos_iff.mpr (hne h (by simp))
    simp only [List.flatMap_cons, List.length_append, List.length_cons, recordedHeaders,
      List.length_map] at hle heq ⊢
    refine ⟨by omega, fun hlen h' hm => ?_⟩
    rcases List.mem_cons.mp hm with rfl | hm
    · omega
    · exact heq (by omega) h' hm

/-- The length of all keys. -/
def keyLength (l : List Header) : Nat := (l.map fun h => h.1.length).sum

theorem keyLength_recorded (hs : List (List Bytes × List Bytes)) (hone : ∀ h ∈ hs, h.2.length = 1) :
    keyLength (hs.flatMap recordedHeaders) ≤ keyLength (hs.map reportedHeader) ∧
      (keyLength (hs.flatMap recordedHeaders) = keyLength (hs.map reportedHeader) →
        ∀ h ∈ hs, OnePiece h.1) := by
  induction hs with
  | nil => simp
  | cons h hs ih =>
    obtain ⟨hle, heq⟩ := ih fun h' hm => hone h' (by simp [hm])
    obtain ⟨value, hvalue⟩ := List.length_eq_one_iff.mp (hone h (by simp))
    have hlast := length_last_le h.1
    simp only [keyLength, List.flatMap_cons, List.map_append, List.sum_append, List.map_cons,
      List.sum_cons, recordedHeaders, reportedHeader, hvalue, List.map_nil, List.sum_nil,
      Nat.add_zero] at hle heq ⊢
    refine ⟨by omega, fun hlen h' hm => ?_⟩
    rcases List.mem_cons.mp hm with rfl | hm
    · exact onePiece_of_length_eq (by omega)
    · exact heq (by omega) h' hm

/-- The recorded headers, with others behind them, give the map of the reported ones exactly
when every header came in one piece and there are no others. -/
theorem ofList_recorded_iff {hs : List (List Bytes × List Bytes)} (hne : ∀ h ∈ hs, h.2 ≠ [])
    (others : List Header) :
    HeaderMap.ofList (hs.flatMap recordedHeaders ++ others) =
        HeaderMap.ofList (hs.map reportedHeader) ↔
      others = [] ∧ ∀ h ∈ hs, OnePiece h.1 ∧ h.2.length = 1 := by
  constructor
  · intro heq
    have hperm := HeaderMap.perm_of_ofList_eq heq
    obtain ⟨hle, hlen⟩ := length_recorded hs hne
    have hlength := hperm.length_eq
    rw [List.length_append, List.length_map] at hlength
    have hothers : others = [] := List.eq_nil_of_length_eq_zero (by omega)
    subst hothers
    rw [List.length_nil, Nat.add_zero] at hlength
    have hone := hlen hlength
    rw [List.append_nil] at hperm
    have hkeys : keyLength (hs.flatMap recordedHeaders) = keyLength (hs.map reportedHeader) :=
      (hperm.map _).sum_eq
    exact ⟨rfl, fun h hm => ⟨(keyLength_recorded hs hone).2 hkeys h hm, hone h hm⟩⟩
  · rintro ⟨rfl, hall⟩
    rw [List.append_nil]
    have hsame : ∀ h ∈ hs, recordedHeaders h = [reportedHeader h] := by
      intro h hm
      obtain ⟨hone, hlen⟩ := hall h hm
      obtain ⟨value, hvalue⟩ := List.length_eq_one_iff.mp hlen
      simp only [recordedHeaders, reportedHeader, hvalue, (onePiece_iff h.1).mp hone, List.map_cons,
        List.map_nil, List.flatten_cons, List.flatten_nil, List.append_nil]
    rw [List.flatMap_congr hsame, ← List.map_eq_flatMap]

/-! ## Recording -/

namespace ParserEvent

/-- The pieces of a kind that are reported. -/
def urlPieces (events : List ParserEvent) : List Bytes :=
  events.filterMap fun | .url data => some data | _ => none

def valuePieces (events : List ParserEvent) : List Bytes :=
  events.filterMap fun | .headerValue data => some data | _ => none

def bodyPieces (events : List ParserEvent) : List Bytes :=
  events.filterMap fun | .body data => some data | _ => none

theorem before_append {mark : ParserEvent} {xs : List ParserEvent} (hmem : mark ∈ xs)
    (ys : List ParserEvent) : mark.before (xs ++ ys) = mark.before xs := by
  induction xs with
  | nil => cases hmem
  | cons e xs ih =>
    by_cases he : e = mark
    · simp [before, he]
    · have hrest := ih ((List.mem_cons.mp hmem).resolve_left (Ne.symm he))
      simp only [before, List.cons_append, List.takeWhile_cons, he, ne_eq, not_false_eq_true,
        decide_true, if_true] at hrest ⊢
      rw [hrest]

theorem not_mem_before (mark : ParserEvent) (es : List ParserEvent) : mark ∉ mark.before es := by
  induction es with
  | nil => simp [before]
  | cons e es ih =>
    by_cases he : e = mark
    · simp [before, he]
    · simp only [before, List.takeWhile_cons, he, ne_eq, not_false_eq_true, decide_true, if_true,
        List.mem_cons, not_or] at ih ⊢
      exact ⟨Ne.symm he, ih⟩

/-- The callbacks are those before the first `mark`, the `mark` and those behind it. -/
theorem before_behind {mark : ParserEvent} {es : List ParserEvent} (hmem : mark ∈ es) :
    mark.before es ++ mark :: mark.behind es = es := by
  induction es with
  | nil => cases hmem
  | cons e es ih =>
    by_cases he : e = mark
    · simp [before, behind, he]
    · have hrest := ih ((List.mem_cons.mp hmem).resolve_left (Ne.symm he))
      simp only [before, behind, List.takeWhile_cons, List.dropWhile_cons, he, ne_eq,
        not_false_eq_true, decide_true, if_true, List.cons_append] at hrest ⊢
      rw [hrest]

end ParserEvent

open ParserEvent

/-- What the callbacks keep of a request; `headers` are the calls of `add_header`. -/
structure Recorded where
  url : Bytes
  fieldTmp : Bytes
  headers : List Header
  body : Bytes

namespace Recorded

def empty : Recorded := { url := [], fieldTmp := [], headers := [], body := [] }

def add (r : Recorded) : ParserEvent → Recorded
  | .url data => { r with url := data }
  | .headerField data => { r with fieldTmp := data }
  | .headerValue data => { r with headers := r.headers ++ [(r.fieldTmp, data)] }
  | .body data => { r with body := r.body ++ data }
  | _ => r

/-- The record of the pieces in `f`. -/
structure Records (r : Recorded) (f : Fragments) : Prop where
  url : r.url = f.url.getLastD []
  fieldTmp : r.fieldTmp = f.fields.getLastD []
  headers : r.headers = f.headers.reverse.flatMap recordedHeaders
  body : r.body = f.body.flatten
  current : f.last = .value → ∃ values headers, f.headers = (f.fields, values) :: headers
  values : ∀ h ∈ f.headers, h.2 ≠ []

theorem Records.addField {r : Recorded} {f : Fragments} (h : Records r f) (data : Bytes) :
    Records { r with fieldTmp := data } (f.addField data) := by
  obtain ⟨hurl, htmp, hheaders, hbody, hcurrent, hvalues⟩ := h
  unfold Fragments.addField
  split
  · rename_i hlast
    exact ⟨hurl, by simp, hheaders, hbody, by simp [hlast], hvalues⟩
  · exact ⟨hurl, by simp, hheaders, hbody, by simp, hvalues⟩

theorem Records.addValue {r : Recorded} {f : Fragments} (h : Records r f) (data : Bytes) :
    Records { r with headers := r.headers ++ [(r.fieldTmp, data)] } (f.addValue data) := by
  obtain ⟨hurl, htmp, hheaders, hbody, hcurrent, hvalues⟩ := h
  unfold Fragments.addValue
  split
  · -- the value goes on
    rename_i fields values headers hlast hhead
    obtain ⟨values', headers', heq⟩ := hcurrent hlast
    rw [hhead, List.cons.injEq, Prod.mk.injEq] at heq
    obtain ⟨⟨rfl, rfl⟩, rfl⟩ := heq
    refine ⟨hurl, htmp, ?_, hbody, fun _ => ⟨_, _, rfl⟩, ?_⟩
    · simp [hheaders, hhead, htmp, recordedHeaders]
    · intro h hm
      rcases List.mem_cons.mp hm with rfl | hm
      · simp
      · exact hvalues h (by simp [hhead, hm])
  · -- a new header
    refine ⟨hurl, htmp, ?_, hbody, fun _ => ⟨_, _, rfl⟩, ?_⟩
    · simp [hheaders, htmp, recordedHeaders]
    · intro h hm
      rcases List.mem_cons.mp hm with rfl | hm
      · simp
      · exact hvalues h hm

theorem Records.add {r : Recorded} {f : Fragments} (h : Records r f) (e : ParserEvent) :
    Records (r.add e) (f.add e) := by
  cases e with
  | headerField data => exact h.addField data
  | headerValue data => exact h.addValue data
  | url data => exact { h with url := by simp [Recorded.add, Fragments.add] }
  | body data => exact { h with body := by simp [Recorded.add, Fragments.add, h.body] }
  | _ => exact h

theorem records_ofEvents (events : List ParserEvent) :
    Records (events.foldl add empty) (Fragments.ofEvents events) := by
  have hall : ∀ r f, Records r f → Records (events.foldl add r) (events.foldl Fragments.add f) := by
    induction events with
    | nil => exact fun _ _ h => h
    | cons e events ih => exact fun r f h => ih _ _ (h.add e)
  exact hall _ _ ⟨rfl, rfl, rfl, rfl, by simp [Fragments.empty], by simp [Fragments.empty]⟩

/-- What further callbacks do to a record. -/
theorem foldl_add (r : Recorded) (events : List ParserEvent) :
    (events.foldl add r).url = (urlPieces events).getLastD r.url ∧
    (events.foldl add r).body = r.body ++ (bodyPieces events).flatten ∧
    ∃ others, (events.foldl add r).headers = r.headers ++ others ∧
      others.length = (valuePieces events).length := by
  induction events generalizing r with
  | nil => exact ⟨rfl, by simp [bodyPieces], [], by simp, rfl⟩
  | cons e events ih =>
    obtain ⟨hurl, hbody, others, hheaders, hlen⟩ := ih (r.add e)
    rw [List.foldl_cons, hurl, hbody, hheaders]
    cases e with
    | url data =>
      refine ⟨?_, rfl, others, rfl, hlen⟩
      simp only [add, urlPieces, List.filterMap_cons, List.getLastD_cons]
    | headerValue data =>
      refine ⟨rfl, rfl, (r.fieldTmp, data) :: others, by simp [add], ?_⟩
      simp [valuePieces, hlen]
    | body data => exact ⟨rfl, by simp [add, bodyPieces], others, rfl, hlen⟩
    | _ => exact ⟨rfl, rfl, others, rfl, hlen⟩

end Recorded

/-- The url and each header of `f` came in one piece, and what is reported behind them leaves
them as they are. -/
structure Unbroken (f : Fragments) (behind : List ParserEvent) : Prop where
  url : urlPieces behind = [] → OnePiece f.url
  laterUrl : ∀ url, (urlPieces behind).getLast? = some url → url = f.url.flatten
  headers : ∀ h ∈ f.headers, OnePiece h.1 ∧ h.2.length = 1
  laterValues : valuePieces behind = []

theorem recorded_url_iff {r : Recorded} {f : Fragments} (h : r.Records f)
    (behind : List ParserEvent) :
    (behind.foldl Recorded.add r).url = f.url.flatten ↔
      (urlPieces behind = [] → OnePiece f.url) ∧
        ∀ url, (urlPieces behind).getLast? = some url → url = f.url.flatten := by
  rw [(Recorded.foldl_add r behind).1, h.url]
  rcases List.eq_nil_or_concat (urlPieces behind) with hnil | ⟨init, last, hlast⟩
  · rw [hnil]
    simp [onePiece_iff]
  · rw [hlast]
    simp

theorem recorded_headers_iff {r : Recorded} {f : Fragments} (h : r.Records f)
    (behind : List ParserEvent) :
    HeaderMap.ofList (behind.foldl Recorded.add r).headers =
        HeaderMap.ofList f.request.headers ↔
      valuePieces behind = [] ∧ ∀ h ∈ f.headers, OnePiece h.1 ∧ h.2.length = 1 := by
  obtain ⟨-, -, others, hheaders, hlen⟩ := Recorded.foldl_add r behind
  have hne : ∀ g ∈ f.headers.reverse, g.2 ≠ [] := fun g hm => h.values g (by simpa using hm)
  have hnil : others = [] ↔ valuePieces behind = [] := by
    rw [← List.length_eq_zero_iff, ← List.length_eq_zero_iff, hlen]
  rw [hheaders, h.headers]
  refine (ofList_recorded_iff hne others).trans (and_congr hnil ?_)
  simp

/-- The record is right exactly when nothing was broken. -/
theorem recorded_iff {r : Recorded} {f : Fragments} (h : r.Records f) (behind : List ParserEvent) :
    (behind.foldl Recorded.add r).url = f.request.url ∧
        HeaderMap.ofList (behind.foldl Recorded.add r).headers =
          HeaderMap.ofList f.request.headers ↔ Unbroken f behind := by
  refine (and_congr (recorded_url_iff h behind) (recorded_headers_iff h behind)).trans ?_
  constructor
  · rintro ⟨⟨hurl, hlater⟩, hvalues, hheaders⟩
    exact ⟨hurl, hlater, hheaders, hvalues⟩
  · rintro ⟨hurl, hlater, hheaders, hvalues⟩
    exact ⟨⟨hurl, hlater⟩, hvalues, hheaders⟩

theorem recorded_body_iff {r : Recorded} {f : Fragments} (h : r.Records f)
    (behind : List ParserEvent) :
    (behind.foldl Recorded.add r).body = f.request.body ↔ (bodyPieces behind).flatten = [] := by
  rw [(Recorded.foldl_add r behind).2.1, h.body]
  exact List.append_right_eq_self

end Tubekit
