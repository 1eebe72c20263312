import Tubekit.Http.Pieces

/-!
# Requests for an upgrade

`Asks` is that a request, read one byte after the other, asks for an upgrade: the headers become
complete with its last byte, and the call is left there. It does so however it is cut into calls
(`Asks.upgrades`).
-/

namespace Tubekit.HttpExecute

section Upgrade

variable {σ : Type} {R : Reader σ} {s s' : σ} {b : Bitten} {p : GoodParser}

/-- The parser behind pieces that come to these bytes, and what the reader has read. -/
theorem pieces_read {pieces : List Bytes} {m : Marks} (hfine : Fine 0 p.1 m)
    (htold : R.told s p.1.state m = R.told s' p.1.state (.start p.1.state))
    (hbites : bites p.1 m pieces.flatten = some b) (hleft : b.left = false) :
    (httpParser.feed (fun (_ : Unit) _ => (0, ())) p () pieces).1.1 = b.parser ∧
      R.told (R.read s' (httpParser.callbacks p pieces)) b.parser.state (.start b.parser.state) =
        R.view s b := by
  have hstart := hfine.start
  induction pieces generalizing p m s s' b with
  | nil =>
    cases hbites
    exact ⟨rfl, htold.symm⟩
  | cons data pieces ih =>
    rw [HttpParser.callbacks, HttpParser.feed_zero_cons]
    by_cases hdata : data = []
    · subst hdata
      exact ih hfine htold hbites hleft hstart
    · rw [List.flatten_cons] at hbites
      obtain ⟨b₁, hbites₁, hbefore⟩ := bites_append hbites
      rcases hbefore with ⟨hgo, b₂, hbites₂, rfl⟩ | ⟨hgo, -, rfl⟩
      · obtain ⟨b₁', hbites₁', hparser, hleft₁, hview⟩ := Reader.bites_same hfine hstart htold hbites₁
        have hafter := after_bites hstart hbites₁' (hleft₁.trans hgo)
        rw [Reader.view, Reader.view, hgo, hleft₁.trans hgo, if_neg Bool.false_ne_true,
          if_neg Bool.false_ne_true] at hview
        have hnext := hafter.trans hparser
        have hfine₁ := bites_fine hfine hbites₁
        have hfine₂ : Fine 0 (httpParser.after p data none).parser.1 b₁.marks := by
          rw [hnext]
          exact hfine₁
        have htold₂ : R.told (R.read s b₁.events) (httpParser.after p data none).parser.1.state b₁.marks =
            R.told (R.told (R.read s b₁.events) b₁.parser.state b₁.marks)
              (httpParser.after p data none).parser.1.state
              (.start (httpParser.after p data none).parser.1.state) := by
          rw [hnext]
          exact (Reader.told_start hfine₁.sound.marked).symm
        have hbites₂' : bites (httpParser.after p data none).parser.1 b₁.marks pieces.flatten =
            some b₂ := by
          rw [hnext]
          exact hbites₂
        have hleft₂ : b₂.left = false := hleft
        obtain ⟨hfeed, hread⟩ := ih hfine₂ htold₂ hbites₂' hleft₂ hfine₂.start
        refine ⟨hfeed, ?_⟩
        rw [events_piece hstart hbites₁' (hleft₁.trans hgo) hdata, Reader.read_append,
          Reader.read_append]
        have hsame : R.read (R.read s' b₁'.events) (leftOver b₁'.parser.state b₁'.marks) =
            R.told (R.read s b₁.events) b₁.parser.state b₁.marks := hview.symm
        rw [hsame]
        refine hread.trans ?_
        rw [Reader.view, Reader.view, Bitten.behind_events, Bitten.behind_left, Bitten.behind_parser,
          Bitten.behind_marks, Reader.read_append]
      · rw [hgo] at hleft
        cases hleft

/-- A reader to whom data say nothing. -/
def Reader.quiet (f : σ → ParserEvent → σ) (hf : ∀ s (k : Mark) xs, f s (k.event xs) = s) :
    Reader σ where
  add := f
  glue := by
    intro s k xs ys
    rw [hf, hf, hf]
  body := fun s => hf s .body []

section Quiet

variable {f : σ → ParserEvent → σ} {hf : ∀ s (k : Mark) xs, f s (k.event xs) = s}

theorem told_quiet (s : σ) (q : State) (m : Marks) : (Reader.quiet f hf).told s q m = s := by
  rw [Reader.told, leftOver]
  cases hcall : q.mark.bind m.call with
  | none => rfl
  | some e =>
    obtain ⟨k, -, hk⟩ := Option.bind_eq_some_iff.mp hcall
    obtain ⟨xs, -, rfl⟩ := Option.map_eq_some_iff.mp hk
    exact hf s k xs

theorem view_quiet (s : σ) (b : Bitten) :
    (Reader.quiet f hf).view s b = (Reader.quiet f hf).read s b.events := by
  rw [Reader.view, told_quiet, ite_self]

end Quiet

/-- The reader that looks for a callback. -/
def seen (mark : ParserEvent) (hmark : ∀ (k : Mark) xs, k.event xs ≠ mark) : Reader Bool :=
  .quiet (fun found e => found || decide (e = mark)) fun found k xs => by simp [hmark]

variable {mark : ParserEvent} {hmark : ∀ (k : Mark) xs, k.event xs ≠ mark}

theorem read_seen (found : Bool) (events : List ParserEvent) :
    (seen mark hmark).read found events = (found || decide (mark ∈ events)) := by
  induction events generalizing found with
  | nil => simp
  | cons e events ih =>
    change (seen mark hmark).read (found || decide (e = mark)) events = _
    rw [ih, Bool.or_assoc]
    congr 1
    by_cases he : e = mark
    · simp [he]
    · simp [he, Ne.symm he]

theorem told_seen (found : Bool) (q : State) (m : Marks) : (seen mark hmark).told found q m = found :=
  told_quiet found q m

theorem view_seen (found : Bool) (b : Bitten) :
    (seen mark hmark).view found b = (found || decide (mark ∈ b.events)) :=
  (view_quiet found b).trans (@read_seen mark hmark found b.events)

theorem headersComplete_ne (k : Mark) (xs : Bytes) : k.event xs ≠ .headersComplete := by
  cases k <;> exact ParserEvent.noConfusion

/-- A request for an upgrade, read one byte after the other: the headers become complete with its last
byte, and the call is left there. -/
structure Asks (request : Bytes) (b : Bitten) : Prop where
  bites : bites (.init .request) (.start .startReq) request = some b
  left : b.left = true
  between : b.parser.state.mark = none
  upgrade : b.parser.upgrade = true
  complete : .headersComplete ∈ b.events
  before : ∀ b', HttpExecute.bites (.init .request) (.start .startReq) request.dropLast = some b' →
    .headersComplete ∉ b'.events

theorem Asks.cut {xs ys : Bytes} (h : Asks (xs ++ ys) b) (hys : ys ≠ []) :
    ∃ b₁ b₂, HttpExecute.bites (.init .request) (.start .startReq) xs = some b₁ ∧ b₁.left = false ∧
      .headersComplete ∉ b₁.events ∧ HttpExecute.bites b₁.parser b₁.marks ys = some b₂ ∧
      b = b₂.behind b₁.events := by
  obtain ⟨b₁, hbites₁, hbefore⟩ := bites_append h.bites
  have hnot : .headersComplete ∉ b₁.events := by
    have hlast : xs ++ ys = (xs ++ ys).dropLast ++ [(xs ++ ys).getLast (by simp [hys])] :=
      (List.dropLast_append_getLast _).symm
    have hall := h.bites
    rw [hlast] at hall
    obtain ⟨b₃, hbites₃, -⟩ := bites_append hall
    have hnot₃ := h.before b₃ hbites₃
    rw [List.dropLast_append_of_ne_nil hys] at hbites₃
    obtain ⟨b₄, hbites₄, hbefore₄⟩ := bites_append hbites₃
    obtain rfl : b₁ = b₄ := Option.some_inj.mp (hbites₁.symm.trans hbites₄)
    rcases hbefore₄ with ⟨-, b₅, -, rfl⟩ | ⟨-, -, rfl⟩
    · exact fun hmem => hnot₃ (List.mem_append_left _ hmem)
    · exact hnot₃
  rcases hbefore with ⟨hleft, b₂, hbites₂, rfl⟩ | ⟨-, hnil, -⟩
  · exact ⟨b₁, b₂, hbites₁, hleft, hnot, hbites₂, rfl⟩
  · exact absurd hnil hys

theorem Asks.notBefore {request : Bytes} (h : Asks request b) {pieces : List Bytes} {ys : Bytes}
    (hys : ys ≠ []) (hrequest : request = pieces.flatten ++ ys) :
    .headersComplete ∉ httpParser.callbacks httpParser.init pieces := by
  subst hrequest
  obtain ⟨b₁, -, hbites₁, hleft, hnot, -⟩ := h.cut hys
  have hread := (pieces_read (R := seen .headersComplete headersComplete_ne) (s := false) (p := httpParser.init)
    init_fine rfl hbites₁ hleft).2
  rw [told_seen, view_seen, read_seen, Bool.false_or, Bool.false_or, decide_eq_false hnot] at hread
  exact of_decide_eq_false hread

theorem Asks.stops {pieces : List Bytes} {ys : Bytes} (h : Asks (pieces.flatten ++ ys) b)
    (hys : ys ≠ []) (rest : Bytes) :
    .headersComplete ∈ httpParser.events (httpParser.behind pieces) (ys ++ rest) ∧
      (httpParser.after (httpParser.behind pieces) (ys ++ rest) none).upgrade = true ∧
      (httpParser.after (httpParser.behind pieces) (ys ++ rest) none).nparsed = ys.length := by
  obtain ⟨b₁, b₂, hbites₁, hleft, hnot, hbites₂, rfl⟩ := h.cut hys
  have hbehind : (httpParser.behind pieces).1 = b₁.parser :=
    (pieces_read (R := seen .headersComplete headersComplete_ne) (s := false) (p := httpParser.init)
      init_fine rfl hbites₁ hleft).1
  have hfine : Fine 0 (httpParser.behind pieces).1 b₁.marks := by
    rw [hbehind]
    exact bites_fine init_fine hbites₁
  rw [← hbehind] at hbites₂
  obtain ⟨b₂', hbites₂', hparser, hleft₂, hview⟩ := Reader.bites_same
    (R := seen .headersComplete headersComplete_ne) (s := false) hfine hfine.start
    (by rw [told_seen, told_seen]) hbites₂
  have hmem : .headersComplete ∈ b₂.events := (List.mem_append.mp h.complete).resolve_left hnot
  rw [view_seen, view_seen, Bool.false_or, Bool.false_or, decide_eq_true hmem, eq_comm,
    decide_eq_true_eq] at hview
  have hdata : ys ++ rest ≠ [] := List.append_ne_nil_of_left_ne_nil hys rest
  have hmark : b₂'.parser.state.mark = none := by
    rw [hparser]
    exact h.between
  have hleads := call_leads hfine.start hbites₂' hmark rest
  rw [Bitten.point, hleft₂.trans h.left, if_pos rfl] at hleads
  obtain ⟨unread, hresult, hn⟩ := after_none hfine.ok hdata
  have hreturned := hresult.symm.trans
    (hleads.result.trans (Lib.Dialogue.result_done (D := loop) rfl))
  rw [Result.returned.injEq] at hreturned
  obtain ⟨hafter, rfl⟩ := hreturned
  refine ⟨?_, ?_, ?_⟩
  · rw [events_bites hfine.start hbites₂' hmark hdata]
    exact List.mem_append_left _ hview
  · have hupgrade : (httpParser.after (httpParser.behind pieces) (ys ++ rest) none).upgrade =
        (httpParser.after (httpParser.behind pieces) (ys ++ rest) none).parser.1.upgrade := by
      simp only [httpParser]
      split <;> rfl
    rw [hupgrade, hafter, hparser]
    exact h.upgrade
  · rw [hn, List.length_append, Nat.add_sub_cancel]

/-- A request that asks for an upgrade does so however it is cut. -/
theorem Asks.upgrades {request : Bytes} (h : Asks request b) : httpParser.Upgrades request where
  notBefore := by
    rintro pieces hlength ⟨ys, hrequest⟩
    refine h.notBefore ?_ hrequest.symm
    rintro rfl
    rw [List.append_nil] at hrequest
    rw [hrequest] at hlength
    exact absurd hlength (Nat.lt_irrefl _)
  stops := by
    intro pieces data rest hlength hbytes hall
    rcases List.append_eq_append_iff.mp hbytes with ⟨ys, rfl, rfl⟩ | ⟨zs, hzs, -⟩
    · have hys : ys ≠ [] := by
        rintro rfl
        rw [List.append_nil] at hlength
        exact absurd hlength (Nat.lt_irrefl _)
      obtain ⟨hmem, hup, hn⟩ := h.stops hys rest
      refine ⟨hmem, hup, ?_⟩
      rw [hn, List.length_append, Nat.add_sub_cancel_left]
    · rw [hzs, List.length_append] at hlength
      omega

end Upgrade

end Tubekit.HttpExecute
