import Tubekit.Http.UpgradeRequest
import Tubekit.Task.HandshakeMeaning

/-!
# Handshakes over `http_parser`

What `websocket_task` needs of the request that opens a connection holds of `http_parser`, however the
request is cut into calls, if it holds of the request read one byte after the other.
-/

namespace Tubekit.HttpExecute

/-- The reader that looks whether all callbacks are accepted. -/
def accepting : Reader Bool :=
  .quiet (fun accepted e => accepted && e.accepted) fun accepted k xs => by
    cases k <;> simp [Mark.event, ParserEvent.accepted, websocketReply]

section Accepting

variable {b : Bitten}

theorem read_accepting (accepted : Bool) (events : List ParserEvent) :
    accepting.read accepted events = (accepted && events.all ParserEvent.accepted) := by
  induction events generalizing accepted with
  | nil => simp
  | cons e events ih =>
    change accepting.read (accepted && e.accepted) events = _
    rw [ih, List.all_cons, Bool.and_assoc]

theorem told_accepting (accepted : Bool) (q : State) (m : Marks) :
    accepting.told accepted q m = accepted := told_quiet accepted q m

theorem view_accepting (accepted : Bool) (b : Bitten) :
    accepting.view accepted b = (accepted && b.events.all ParserEvent.accepted) :=
  (view_quiet accepted b).trans (read_accepting accepted b.events)

theorem Asks.accepted {pieces : List Bytes} {ys : Bytes} (h : Asks (pieces.flatten ++ ys) b)
    (hys : ys ≠ []) (haccepted : b.events.all ParserEvent.accepted = true) (rest : Bytes) :
    (httpParser.callbacks httpParser.init (pieces ++ [ys ++ rest])).all ParserEvent.accepted = true := by
  obtain ⟨b₁, b₂, hbites₁, hleft, -, hbites₂, rfl⟩ := h.cut hys
  rw [Bitten.behind_events, List.all_append, Bool.and_eq_true] at haccepted
  obtain ⟨hbehind, hread⟩ := pieces_read (R := accepting) (s := true) (p := httpParser.init) init_fine
    rfl hbites₁ hleft
  rw [told_accepting, view_accepting, read_accepting, Bool.true_and, Bool.true_and,
    haccepted.1] at hread
  have hsame : (httpParser.behind pieces).1 = b₁.parser := hbehind
  have hfine : Fine 0 (httpParser.behind pieces).1 b₁.marks := by
    rw [hsame]
    exact bites_fine init_fine hbites₁
  rw [← hsame] at hbites₂
  obtain ⟨b₂', hbites₂', hparser, hleft₂, hview⟩ := Reader.bites_same (R := accepting) (s := true)
    hfine hfine.start (by rw [told_accepting, told_accepting]) hbites₂
  rw [view_accepting, view_accepting, Bool.true_and, Bool.true_and, haccepted.2] at hview
  have hmark : b₂'.parser.state.mark = none := by
    rw [hparser]
    exact h.between
  have hevents := events_bites hfine.start hbites₂' hmark
    (List.append_ne_nil_of_left_ne_nil hys rest)
  rw [Bitten.point, hleft₂.trans h.left, if_pos rfl, Lib.Dialogue.asked_done (D := loop) rfl,
    List.append_nil] at hevents
  rw [HttpParser.callbacks_append, List.all_append, hread, Bool.true_and]
  change (httpParser.events (httpParser.behind pieces) (ys ++ rest) ++ []).all _ = true
  rw [List.append_nil, hevents, ← hview]

/-- **A `GET` that asks for an upgrade is one for `http_parser`**: however it is cut it asks for the
upgrade at its end, and no callback of `websocket_task` stops the parser before. -/
theorem httpParser_getUpgrade {request : Bytes} (h : Asks request b)
    (haccepted : b.events.all ParserEvent.accepted = true) : httpParser.GetUpgrade request where
  toUpgrades := h.upgrades
  accepted := by
    intro pieces data rest hlength hbytes
    rcases List.append_eq_append_iff.mp hbytes with ⟨ys, rfl, rfl⟩ | ⟨zs, hzs, -⟩
    · have hys : ys ≠ [] := by
        rintro rfl
        rw [List.append_nil] at hlength
        exact absurd hlength (Nat.lt_irrefl _)
      exact List.all_eq_true.mp (h.accepted hys haccepted rest)
    · rw [hzs, List.length_append] at hlength
      omega

theorem httpParser_getUpgrade_get : httpParser.GetUpgrade
    (chars "GET / HTTP/1.1\r\nUpgrade: a\r\nConnection: upgrade\r\n\r\n") :=
  httpParser_getUpgrade (b := _)
    { bites := rfl
      left := rfl
      between := rfl
      upgrade := rfl
      complete := by decide
      before := by
        intro b' hbites
        cases hbites
        decide } (by decide)

end Accepting

end Tubekit.HttpExecute
