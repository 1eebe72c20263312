import Tubekit.Http.Execute

/-!
# The assertions of `http_parser`

`Sound` is what holds at every byte: which mark is set in which state, what `header_state` can be in
the loops over a field and a value, and what is known of `content_length`, `flags` and `nread` where
the states of a body and of a chunk assert it. One turn keeps it, so no assertion fails in a call,
whatever the data are and whatever the callbacks return, nor in the calls behind it
(`calls_returned`).
-/

namespace Tubekit.HttpExecute

/-! ## Marks -/

/-- The mark that can be set in a state. -/
def State.mark : State → Option Mark
  | .headerField => some .headerField
  | .headerValue => some .headerValue
  | .reqSchema | .reqSchemaSlash | .reqSchemaSlashSlash | .reqServerStart | .reqServer
  | .reqServerWithAt | .reqPath | .reqQueryStringStart | .reqQueryString | .reqFragmentStart
  | .reqFragment => some .url
  | .resStatus => some .status
  | .bodyIdentity | .bodyIdentityEof | .chunkData | .chunkDataAlmostDone => some .body
  | _ => none

/-- No mark is set but that of the state, and that one is, if it is not that of a body. -/
structure Marked (s : State) (m : Marks) : Prop where
  only : ∀ k, (m k).isSome → s.mark = some k
  is : ∀ k, s.mark = some k → k ≠ .body → (m k).isSome

namespace Marked

variable {s t : State} {m : Marks} {k : Mark}

theorem next (h : Marked s m) (hs : t.mark = s.mark) : Marked t m := ⟨hs ▸ h.only, hs ▸ h.is⟩

theorem add (h : Marked s m) (data : Bytes) : Marked s (m.add data) := by
  refine ⟨fun k hk => h.only k ?_, fun k hs hk => ?_⟩
  · rwa [Marks.add, Option.isSome_map] at hk
  · rw [Marks.add, Option.isSome_map]
    exact h.is k hs hk

theorem isNone (h : Marked s m) (hs : s.mark = none) (k : Mark) : m k = none := by
  by_contra hk
  cases hs.symm.trans (h.only k (Option.isSome_iff_ne_none.mpr hk))

theorem clear (h : Marked s m) (hs : s.mark = some k) (ht : t.mark = none) :
    Marked t (m.clear k) := by
  refine ⟨fun k' hk' => ?_, fun k' hmark => by cases ht.symm.trans hmark⟩
  by_cases heq : k' = k
  · rw [heq, Marks.clear, Function.update_self] at hk'
    cases hk'
  · rw [Marks.clear, Function.update_of_ne heq] at hk'
    cases heq (Option.some_inj.mp ((h.only k' hk').symm.trans hs))

theorem set (h : Marked s m) (hs : ∀ k', s.mark = some k' → k' = k) (ht : t.mark = some k) :
    Marked t (m.set k) := by
  constructor
  · intro k' hk'
    by_cases heq : k' = k
    · rw [heq]
      exact ht
    · rw [Marks.set, Function.update_of_ne heq] at hk'
      cases heq (hs k' (h.only k' hk'))
  · intro k' hmark _
    rw [Option.some_inj.mp (hmark.symm.trans ht)]
    rw [Marks.set, Function.update_self]
    rfl

/-- No mark of a body is set yet. -/
theorem body (h : Marked s m) (hs : s.mark = none) (ht : t.mark = some .body) : Marked t m := by
  constructor
  · intro k hk
    rw [h.isNone hs k] at hk
    cases hk
  · intro k hk hbody
    cases hbody (Option.some_inj.mp (hk.symm.trans ht))

theorem start (s : State) : Marked s (.start s) := by
  constructor
  · intro k hk
    cases s <;> revert hk <;> cases k <;> decide
  · intro k hmark hk
    cases s <;> cases hmark <;> first | rfl | exact absurd rfl hk

theorem count_le (h : Marked s m) : m.count ≤ 1 := by
  have hwhere : ∀ k, (m k).isSome = true → s.mark = some k := h.only
  rw [Marks.count]
  cases hs : s.mark with
  | none =>
    have hzero : ∀ k ∈ Mark.all, ¬(m k).isSome = true := fun k _ hk => by
      cases hs.symm.trans (hwhere k hk)
    rw [List.countP_eq_zero.mpr hzero]
    exact Nat.zero_le 1
  | some k =>
    calc Mark.all.countP (fun k => (m k).isSome)
        ≤ Mark.all.countP (· = k) := List.countP_mono_left fun k' _ hk' =>
          decide_eq_true (Option.some_inj.mp ((hwhere k' hk').symm.trans hs))
      _ ≤ 1 := by cases k <;> decide

end Marked

/-! ## What holds at a byte -/

/-- The states of a header that `s_header_field` knows. -/
def HeaderState.inField : HeaderState → Bool
  | .general | .C | .CO | .CON | .matchingConnection | .matchingProxyConnection
  | .matchingContentLength | .matchingTransferEncoding | .matchingUpgrade | .connection
  | .contentLength | .transferEncoding | .upgrade => true
  | _ => false

/-- Behind the test of the loop `counted` is what it has counted since `nread` was `0`. -/
structure Sound (counted : Nat) (p : Parser) (m : Marks) : Prop where
  marked : Marked p.state m
  length : p.contentLength ≤ ullongMax
  field : p.state = .headerField → p.headerState.inField
  value : p.state = .headerValue → p.headerState ≠ .connection ∧ p.headerState ≠ .transferEncoding
  chunked : p.state = .chunkSizeStart ∨ p.state = .chunkSize ∨ p.state = .chunkParameters ∨
    p.state = .chunkSizeAlmostDone ∨ p.state = .chunkData ∨ p.state = .chunkDataAlmostDone ∨
    p.state = .chunkDataDone → p.flags.chunked
  size : p.state = .chunkSize ∨ p.state = .chunkParameters ∨ p.state = .chunkSizeAlmostDone ∨
    p.state = .chunkData ∨ p.state = .bodyIdentity → p.contentLength ≠ ullongMax
  data : p.state = .chunkData ∨ p.state = .bodyIdentity → p.contentLength ≠ 0
  almost : p.state = .chunkDataAlmostDone → p.contentLength = 0
  start : p.state = .chunkSizeStart → p.nread = counted

/-- The states of which nothing is asserted. -/
def State.plain : State → Bool
  | .headerField | .headerValue | .chunkSizeStart | .chunkSize | .chunkParameters
  | .chunkSizeAlmostDone | .chunkData | .chunkDataAlmostDone | .chunkDataDone | .bodyIdentity =>
    false
  | _ => true

variable {n : Nat} {p q : Parser} {m : Marks} {ch : Byte}

/-- Into a state of which nothing is asserted, with the same mark. -/
theorem Sound.to {s : State} (h : Marked s m) (hlength : p.contentLength ≤ ullongMax)
    (hs : p.state.plain = true) (hmark : p.state.mark = s.mark) : Sound n p m := by
  have hmarked := h.next hmark
  generalize hstate : p.state = state at hs hmarked
  constructor
  · rw [hstate]
    exact hmarked
  · exact hlength
  all_goals
    rw [hstate]
    intro hspecial
    exfalso
    revert hs hspecial
    cases state <;> simp [State.plain]

/-- Into a state of a chunk, with no mark. -/
theorem Sound.chunk {s : State} (h : Marked s m) (hs : s.mark = none)
    (hlength : p.contentLength ≤ ullongMax) (hchunked : p.flags.chunked = true)
    (hp : p.state = .chunkSizeStart ∧ p.nread = n ∨ p.state = .chunkDataDone ∨
      (p.state = .chunkSize ∨ p.state = .chunkParameters ∨ p.state = .chunkSizeAlmostDone ∨
        p.state = .chunkData ∧ p.contentLength ≠ 0) ∧ p.contentLength ≠ ullongMax) :
    Sound n p m := by
  have hdata := h.body (t := .chunkData) hs rfl
  have hnone : ∀ s' : State, s'.mark = none → Marked s' m := fun s' hs' => h.next (hs'.trans hs.symm)
  rcases hp with ⟨hp, hread⟩ | hp | ⟨hp | hp | hp | ⟨hp, hzero⟩, hsize⟩ <;>
    constructor <;> simp_all [State.mark]

/-- Where a pass that ends so leads, that holds again. -/
def Out.Sound (ch : Byte) : Out → Prop
  | .go p m _ .next => HttpExecute.Sound 0 p (m.add [ch])
  | .go p m _ (.count _) => HttpExecute.Sound 0 p (m.add [ch]) ∧ p.state ≠ .chunkSizeStart
  | .go p m _ .reexecute => HttpExecute.Sound 1 p m
  | .go p _ _ .leave => HttpExecute.Sound 0 p (.start p.state)
  | .fail _ e => e ≠ .ok
  | .abort => False

/-! ## One character -/

theorem fail_sound {e : HttpErrno} (he : e ≠ .ok) : (Out.fail p e).Sound ch := he

section Character

variable (hlength : p.contentLength ≤ ullongMax)

include hlength

theorem messageComplete_sound {s : State} (h : Marked s m) (hs : s.mark = none) {control : Control}
    (hcontrol : control = .next ∨ control = .leave) :
    (messageComplete p m control).Sound ch := by
  have hnew : p.newMessage.plain = true ∧ p.newMessage.mark = none := by
    unfold Parser.newMessage Parser.startState
    split
    · split <;> exact ⟨rfl, rfl⟩
    · exact ⟨rfl, rfl⟩
  rcases hcontrol with rfl | rfl
  · exact Sound.to (h.add [ch]) hlength hnew.1 (hnew.2.trans hs.symm)
  · exact Sound.to (.start _) hlength hnew.1 rfl

theorem constant_sound {s : State} (h : Marked p.state m) (hs : s.plain = true)
    (hmark : s.mark = p.state.mark) (c : Byte) : (constant p m ch c s).Sound ch := by
  unfold constant
  split
  · exact fail_sound (by decide)
  · exact Sound.to (h.add [ch]) hlength hs hmark

theorem version_sound (h : Marked p.state m) (heq : q.contentLength = p.contentLength)
    (hs : q.state.plain = true) (hmark : q.state.mark = p.state.mark) :
    (version p m ch q).Sound ch := by
  unfold version
  split
  · exact fail_sound (by decide)
  · exact Sound.to (h.add [ch]) (heq ▸ hlength) hs hmark

theorem urlChar_sound {s : State} (h : Marked s m) (hs : s.mark = some .url) :
    (urlChar p m ch).Sound ch := by
  have hnext : parseUrlChar p.state ch = .dead ∨ (parseUrlChar p.state ch).plain = true ∧
      (parseUrlChar p.state ch).mark = some .url := by
    unfold parseUrlChar
    grind [State.plain, State.mark]
  rcases hnext with hdead | ⟨hplain, hmark⟩
  · rw [urlChar, hdead]
    exact fail_sound (by decide)
  · simp only [urlChar]
    split
    · exact fail_sound (by decide)
    · exact Sound.to (h.add [ch]) hlength hplain (hmark.trans hs.symm)

theorem urlCharOrEnd_sound {s : State} (h : Marked s m) (hs : s.mark = some .url) :
    (urlCharOrEnd p m ch).Sound ch := by
  have hends : ∀ q : Parser, q.contentLength = p.contentLength → q.state.plain = true →
      q.state.mark = none → ∀ call, (Out.go q (m.clear .url) call .next).Sound ch :=
    fun q heq hplain hmark _ => Sound.to ((h.clear hs hmark).add [ch]) (heq ▸ hlength) hplain rfl
  simp only [urlCharOrEnd]
  split
  · exact hends _ (by rfl) rfl rfl _
  · split
    · exact hends _ (by rfl) rfl rfl _
    · split
      · exact hends _ (by rfl) rfl rfl _
      · exact urlChar_sound hlength h hs

theorem reqMethod_sound (h : Marked .reqMethod m) (hs : p.state = .reqMethod) :
    (reqMethod p m ch).Sound ch := by
  have hstay : ∀ q : Parser, q.contentLength = p.contentLength → q.state = .reqMethod →
      (Out.go q m none .next).Sound ch := fun q heq hq =>
    Sound.to (h.add [ch]) (heq ▸ hlength) (by rw [hq]; rfl) (by rw [hq])
  simp only [reqMethod]
  split
  · exact fail_sound (by decide)
  · split
    · exact Sound.to (h.add [ch]) hlength rfl rfl
    · split
      · exact hstay _ rfl hs
      · split
        · split
          · exact hstay _ rfl hs
          · exact fail_sound (by decide)
        · exact fail_sound (by decide)

theorem headersAlmostDone_sound (h : Marked .headersAlmostDone m) :
    (headersAlmostDone p m ch).Sound ch := by
  unfold headersAlmostDone
  split
  · exact fail_sound (by decide)
  · split
    · exact Sound.to h hlength rfl rfl
    · generalize (if p.flags.chunked then p.allowChunkedLength else p.lenientHttpHeaders) = allowed
      split
      · exact fail_sound (by decide)
      · exact Sound.to h hlength rfl rfl

theorem headersDone_sound (h : Marked .headersDone m) : (headersDone p m ch).Sound ch := by
  have hadd := h.add [ch]
  have hgo : ∀ q : Parser, q.contentLength = p.contentLength → q.state = .bodyIdentityEof ∨
      q.state = .chunkSizeStart ∧ q.nread = 0 ∧ q.flags.chunked = true ∨
      q.state = .bodyIdentity ∧ q.contentLength ≠ ullongMax ∧ q.contentLength ≠ 0 →
      Sound 0 q (m.add [ch]) := by
    rintro q heq (hq | ⟨hq, hread, hchunked⟩ | ⟨hq, hsize, hdata⟩)
    · exact Sound.to (hadd.body (t := .bodyIdentityEof) rfl rfl) (heq ▸ hlength) (by rw [hq]; rfl)
        (by rw [hq])
    · exact Sound.chunk hadd rfl (heq ▸ hlength) hchunked (.inl ⟨hq, hread⟩)
    · have hbody := hadd.body (t := .bodyIdentity) rfl rfl
      constructor <;> simp_all
  have hcomplete : ∀ q control, q.contentLength = p.contentLength →
      (control = .next ∨ control = .leave) → (messageComplete q m control).Sound ch :=
    fun q control heq hcontrol => messageComplete_sound (heq ▸ hlength) h rfl hcontrol
  simp only [headersDone]
  grind [Out.Sound]

theorem valueStart_sound {s : State} (h : Marked s m) (hs : s.mark = none) :
    (valueStart p m ch).Sound ch := by
  have hmarked : Marked .headerValue ((m.set .headerValue).add [ch]) :=
    (h.set (fun k hk => by cases hs.symm.trans hk) rfl).add [ch]
  have hgo : ∀ q : Parser, q.contentLength ≤ ullongMax → q.state = .headerValue →
      q.headerState ≠ .connection → q.headerState ≠ .transferEncoding →
      Sound 0 q ((m.set .headerValue).add [ch]) := by
    intro q hle hq hconnection hencoding
    constructor <;> simp_all
  have hdigit : ch.toNat - 48 ≤ ullongMax := by
    have hlt := ch.toNat_lt
    simp only [ullongMax]
    omega
  unfold valueStart
  grind [Out.Sound]

end Character

theorem unhex_lt {digit : Nat} (h : unhex ch = some digit) : digit < 16 := by
  have hall : ∀ k : Fin 256, ∀ digit ∈ unhex (UInt8.ofNat k), digit < 16 := by decide +kernel
  have hch := hall ⟨ch.toNat, ch.toNat_lt⟩ digit
  rw [UInt8.ofNat_toNat] at hch
  exact hch h

/-- The states whose cases look at more than one byte. -/
def State.many : State → Bool
  | .headerField | .headerValue | .bodyIdentity | .bodyIdentityEof | .chunkData => true
  | _ => false

theorem switch_sound (h : Sound 1 p m) (hone : p.state.many = false) : (switch p m ch).Sound ch := by
  obtain ⟨hmarked, hlength, -, -, hchunked, hsize, -, halmost, hstart⟩ := h
  have hto : ∀ q : Parser, q.contentLength ≤ ullongMax → q.state.plain = true →
      q.state.mark = p.state.mark → ∀ n, Sound n q m ∧ Sound n q (m.add [ch]) :=
    fun q hle hplain hmark n => ⟨Sound.to hmarked hle hplain hmark,
      Sound.to (hmarked.add [ch]) hle hplain hmark⟩
  have hplain : ∀ q : Parser, q.contentLength = p.contentLength → q.state.plain = true →
      q.state.mark = p.state.mark → ∀ call,
      (Out.go q m call .next).Sound ch ∧ (Out.go q m call .reexecute).Sound ch :=
    fun q hle hplain hmark _ => ⟨(hto q (hle ▸ hlength) hplain hmark 0).2,
      (hto q (hle ▸ hlength) hplain hmark 1).1⟩
  unfold switch
  cases hs : p.state <;> rw [hs] at hmarked hchunked hsize halmost hstart hto hplain hone
  all_goals dsimp only
  all_goals try (first
    | exact constant_sound hlength (hs ▸ hmarked) rfl (by rw [hs]; rfl) _
    | exact version_sound hlength (hs ▸ hmarked) rfl rfl (by rw [hs]; rfl)
    | exact reqMethod_sound hlength hmarked hs
    | exact urlCharOrEnd_sound hlength hmarked rfl
    | exact headersAlmostDone_sound hlength hmarked
    | exact headersDone_sound hlength hmarked
    | exact valueStart_sound hlength hmarked rfl
    | cases hone)
  all_goals try (
    (repeat' split) <;>
      first
      | exact fail_sound (by decide)
      | exact (hplain _ (by rfl) (by first | rfl | (rw [hs]; rfl)) (by first | rfl | (rw [hs])) _).1
      | exact (hplain _ (by rfl) (by rfl) (by rfl) _).2
      | exact (hto _ (Nat.le_refl _) (by rfl) (by rfl) 0).2
      | exact (hto _ (Nat.le_refl _) (by rfl) (by rfl) 1).1
      | exact urlChar_sound hlength hmarked rfl
      | exact valueStart_sound hlength hmarked rfl)
  case resStatusStart =>
    have hset := hmarked.set (t := .resStatus) (k := .status) (fun k hk => by cases hk) rfl
    split
    · exact Sound.to hset hlength rfl rfl
    · exact Sound.to (hset.add [ch]) hlength rfl rfl
  case resStatus =>
    have hclear := hmarked.clear (t := .headerFieldStart) rfl rfl
    split
    · exact Sound.to (hclear.add [ch]) hlength rfl rfl
    · split
      · exact Sound.to (hclear.add [ch]) hlength rfl rfl
      · exact (hplain p rfl (by rw [hs]; rfl) (by rw [hs]) _).1
  case reqSpacesBeforeUrl =>
    have hset := hmarked.set (t := .reqPath) (k := .url) (fun k hk => by cases hk) rfl
    split
    · exact (hplain p rfl (by rw [hs]; rfl) (by rw [hs]) _).1
    · apply urlChar_sound _ hset rfl
      split <;> exact hlength
  case headerFieldStart =>
    have hset := hmarked.set (t := .headerField) (k := .headerField) (fun k hk => by cases hk) rfl
    split
    · exact (hplain _ (by rfl) rfl rfl _).1
    · split
      · exact (hplain _ (by rfl) rfl rfl _).2
      · split
        · exact fail_sound (by decide)
        · have hadd := hset.add [ch]
          constructor <;> simp_all [HeaderState.inField]
          split_ifs <;> rfl
  case headerValueDiscardLws =>
    have hset := hmarked.set (t := .headerValue) (k := .headerValue) (fun k hk => by cases hk) rfl
    split
    · exact (hplain _ (by rfl) rfl rfl _).1
    · split
      · exact fail_sound (by decide)
      · exact Sound.to (hset.clear (t := .headerFieldStart) rfl rfl) hlength rfl rfl
  case messageDone =>
    apply messageComplete_sound hlength hmarked rfl
    split
    · exact Or.inr rfl
    · exact Or.inl rfl
  case chunkSizeStart =>
    have hadd := hmarked.add [ch]
    split
    · simp_all
    · rename_i hasserted
      split
      · exact fail_sound (by decide)
      · rename_i digit hdigit
        have hlt := unhex_lt hdigit
        refine Sound.chunk hadd rfl ?_ (by simpa using (not_or.mp hasserted).2) (.inr (.inr ⟨.inl rfl, ?_⟩)) <;>
          simp only [ullongMax] <;> omega
  case chunkSize =>
    have hadd := hmarked.add [ch]
    have hflag := hchunked (.inr (.inl rfl))
    have hnot := hsize (.inl rfl)
    split
    · simp_all
    · split
      · exact Sound.chunk hadd rfl hlength hflag (.inr (.inr ⟨.inr (.inr (.inl rfl)), hnot⟩))
      · split
        · split
          · exact Sound.chunk hadd rfl hlength hflag (.inr (.inr ⟨.inr (.inl rfl), hnot⟩))
          · exact fail_sound (by decide)
        · rename_i digit hdigit
          have hlt := unhex_lt hdigit
          split
          · exact fail_sound (by decide)
          · rename_i hbound
            simp only [ullongMax] at hbound
            refine Sound.chunk hadd rfl ?_ hflag (.inr (.inr ⟨.inl rfl, ?_⟩)) <;>
              simp only [ullongMax] <;> omega
  case chunkParameters =>
    have hadd := hmarked.add [ch]
    have hflag := hchunked (.inr (.inr (.inl rfl)))
    have hnot := hsize (.inr (.inl rfl))
    split
    · simp_all
    · split
      · exact Sound.chunk hadd rfl hlength hflag (.inr (.inr ⟨.inr (.inr (.inl rfl)), hnot⟩))
      · exact Sound.chunk hadd rfl hlength hflag (.inr (.inr ⟨.inr (.inl hs), hnot⟩))
  case chunkSizeAlmostDone =>
    have hflag := hchunked (.inr (.inr (.inr (.inl rfl))))
    have hnot := hsize (.inr (.inr (.inl rfl)))
    split
    · simp_all
    · split
      · exact fail_sound (by decide)
      · split
        · exact Sound.to (hmarked.add [ch]) hlength rfl rfl
        · rename_i hzero
          exact Sound.chunk (hmarked.add [ch]) rfl hlength hflag
            (.inr (.inr ⟨.inr (.inr (.inr ⟨rfl, hzero⟩)), hnot⟩))
  case chunkDataAlmostDone =>
    have hflag := hchunked (.inr (.inr (.inr (.inr (.inr (.inl rfl))))))
    split
    · simp_all
    · split
      · exact fail_sound (by decide)
      · exact Sound.chunk ((hmarked.clear (t := .chunkDataDone) rfl rfl).add [ch]) rfl hlength hflag
          (.inr (.inl rfl))
  case chunkDataDone =>
    have hflag := hchunked (.inr (.inr (.inr (.inr (.inr (.inr rfl))))))
    split
    · simp_all
    · split
      · exact fail_sound (by decide)
      · exact Sound.chunk (hmarked.add [ch]) rfl hlength hflag (.inl ⟨rfl, rfl⟩)

/-! ## The loops inside a case -/

def Pass.Sound (pass : Pass) : Prop := pass.out.Sound pass.ch

theorem matchNext_state (p : Parser) (c : Byte) (text : Bytes) (next last : HeaderState) :
    (matchNext p c text next last).state = p.state ∧
      (matchNext p c text next last).contentLength = p.contentLength ∧
      ((matchNext p c text next last).headerState = next ∨
        (matchNext p c text next last).headerState = last ∨
        (matchNext p c text next last).headerState = p.headerState) := by
  simp only [matchNext]
  split
  · exact ⟨rfl, rfl, .inl rfl⟩
  · split
    · exact ⟨rfl, rfl, .inr (.inl rfl)⟩
    · exact ⟨rfl, rfl, .inr (.inr rfl)⟩

/-- The assertion in `s_header_field`. -/
theorem fieldStep_sound (hs : p.state = .headerField) (hlength : p.contentLength ≤ ullongMax)
    (hfield : p.headerState.inField = true) (ch c : Byte) :
    ∃ q, fieldStep p ch c = some q ∧ q.state = .headerField ∧ q.contentLength ≤ ullongMax ∧
      q.headerState.inField = true := by
  have hmatch : ∀ text next last, next.inField = true → last.inField = true →
      ∃ q, some (matchNext p c text next last) = some q ∧ q.state = .headerField ∧
        q.contentLength ≤ ullongMax ∧ q.headerState.inField = true := by
    intro text next last hnext hlast
    obtain ⟨hstate, hlen, hheader⟩ := matchNext_state p c text next last
    refine ⟨_, rfl, hstate.trans hs, hlen ▸ hlength, ?_⟩
    rcases hheader with hheader | hheader | hheader <;> rw [hheader] <;> assumption
  unfold fieldStep
  cases hh : p.headerState <;> rw [hh] at hfield
  case matchingTransferEncoding =>
    obtain ⟨q, hq, hstate, hlen, hheader⟩ := hmatch (chars "transfer-encoding") .general
      .transferEncoding rfl rfl
    rw [Option.some_inj] at hq
    dsimp only
    rw [hq]
    refine ⟨_, rfl, ?_⟩
    split <;> exact ⟨hstate, hlen, hheader⟩
  case connection | contentLength | transferEncoding | upgrade =>
    refine ⟨_, rfl, ?_⟩
    split
    · exact ⟨hs, hlength, rfl⟩
    · exact ⟨hs, hlength, hh ▸ hfield⟩
  case C | CO | CON =>
    refine ⟨_, rfl, hs, hlength, ?_⟩
    dsimp only
    split_ifs <;> rfl
  all_goals first
    | exact hmatch _ _ _ rfl rfl
    | exact ⟨_, rfl, hs, hlength, hh ▸ hfield⟩
    | exact absurd hfield (by decide)

/-- The two assertions in `s_header_value`. -/
def ValueStep.Sound : ValueStep → Prop
  | .go p h => p.state = .headerValue ∧ p.contentLength ≤ ullongMax ∧ h ≠ .connection ∧
    h ≠ .transferEncoding
  | .fail _ e => e ≠ .ok
  | .abort => False

theorem valueStep_sound (hs : p.state = .headerValue) (hlength : p.contentLength ≤ ullongMax)
    {h : HeaderState} (hh : h ≠ .connection ∧ h ≠ .transferEncoding) (ch : Byte) :
    (valueStep p h ch).Sound := by
  have hgo : ∀ q h', q.state = p.state → q.contentLength = p.contentLength →
      h' ≠ .connection ∧ h' ≠ .transferEncoding → (ValueStep.go q h').Sound :=
    fun q h' hstate hlen hother => ⟨hstate.trans hs, hlen ▸ hlength, hother⟩
  have hmod : ∀ k, k % 18446744073709551616 ≤ ullongMax := fun k =>
    Nat.le_of_lt_succ (Nat.mod_lt k (by decide))
  unfold valueStep
  cases h <;> grind [matchValue, lengthStep, connectionStep, ValueStep.Sound]

theorem fieldLoop_sound (hs : p.state = .headerField) (h : Sound 1 p m) (ch : Byte) (rest : Bytes) :
    (fieldLoop p m 0 ch rest).Sound := by
  refine scan_keeps (P := Pass.Sound) (I := fun q m _ => Marked .headerField m ∧
    q.state = .headerField ∧ q.contentLength ≤ ullongMax ∧ q.headerState.inField = true) ?_ ?_ ?_
    ⟨hs ▸ h.marked, hs, h.length, h.field hs⟩ 0 ch
  · rintro t m n ch q ⟨hmarked, hstate, hlength, hfield⟩ hbody
    obtain ⟨q', hq, hstate', hlength', hfield'⟩ := fieldStep_sound hstate hlength hfield ch (token ch)
    have hadd := hmarked.add [ch]
    simp only [fieldBody, hq] at hbody
    have heq : q' = q := by grind
    subst heq
    refine ⟨?_, by simp [hstate']⟩
    constructor <;> simp_all
  · rintro t m n ch more pass ⟨hmarked, hstate, hlength, hfield⟩ hbody
    obtain ⟨q, hq, -⟩ := fieldStep_sound hstate hlength hfield ch (token ch)
    have hclear := (hmarked.clear (t := .headerValueDiscardWs) rfl rfl).add [ch]
    simp only [fieldBody, hq] at hbody
    split at hbody
    · split at hbody
      · cases hbody
        exact fail_sound (by decide)
      · split at hbody
        · cases hbody
          exact Sound.to hclear hlength rfl rfl
        · cases hbody
          exact fail_sound (by decide)
    · cases hbody
  · rintro t m n ch ch' more q ⟨hmarked, hstate, hlength, hfield⟩ hbody
    obtain ⟨q', hq, hq'⟩ := fieldStep_sound hstate hlength hfield ch (token ch)
    simp only [fieldBody, hq] at hbody
    have heq : q' = q := by grind
    exact ⟨hmarked.add [ch], heq ▸ hq'⟩

theorem valueBody_next {v v' : ValueLocals} {rest : Bytes} (hstate : v.parser.state = .headerValue)
    (hlength : v.parser.contentLength ≤ ullongMax)
    (hh : v.h ≠ .connection ∧ v.h ≠ .transferEncoding)
    (hbody : valueBody v m n ch rest = .inr v') :
    v'.parser.state = .headerValue ∧ v'.parser.contentLength ≤ ullongMax ∧
      v'.h ≠ .connection ∧ v'.h ≠ .transferEncoding := by
  have hstep := valueStep_sound hstate hlength hh ch
  simp only [valueBody] at hbody
  split at hbody
  · cases hbody
    exact ⟨hstate, hlength, hh⟩
  · split at hbody
    · cases hbody
    · split at hbody
      · split at hbody <;> cases hbody
      · split at hbody
        · cases hbody
        · split at hbody
          · cases hbody
            exact ⟨hstate, hlength, hh⟩
          · split at hbody
            · cases hbody
              exact ⟨hstate, hlength, hh⟩
            · split at hbody
              · rename_i hgo
                cases hbody
                rw [hgo] at hstep
                exact hstep
              · cases hbody
              · cases hbody

theorem valueLoop_sound (hs : p.state = .headerValue) (h : Sound 1 p m) (ch : Byte) (rest : Bytes) :
    (valueLoop p m 0 ch rest).Sound := by
  refine scan_keeps (P := Pass.Sound) (I := fun v m _ => Marked .headerValue m ∧
    v.parser.state = .headerValue ∧ v.parser.contentLength ≤ ullongMax ∧ v.h ≠ .connection ∧
    v.h ≠ .transferEncoding) ?_ ?_ ?_ ⟨hs ▸ h.marked, hs, h.length, h.value hs⟩ 0 ch
  · rintro t m n ch v ⟨hmarked, hstate, hlength, hh⟩ hbody
    obtain ⟨hstate', hlength', hh'⟩ := valueBody_next hstate hlength hh hbody
    have hadd := hmarked.add [ch]
    refine ⟨?_, by simp [hstate']⟩
    constructor <;> simp_all
  · rintro t m n ch more pass ⟨hmarked, hstate, hlength, hh⟩ hbody
    have hstep := valueStep_sound hstate hlength hh ch
    have hclear := hmarked.clear (t := .headerAlmostDone) rfl rfl
    have hadd := hclear.add [ch]
    have hleave : ∀ q : Parser, q.contentLength = t.parser.contentLength →
        q.state = .headerAlmostDone → Sound 0 q ((m.clear .headerValue).add [ch]) ∧
          Sound 1 q (m.clear .headerValue) := fun q heq hq =>
      ⟨Sound.to hadd (heq ▸ hlength) (by rw [hq]; rfl) (by rw [hq]),
        Sound.to hclear (heq ▸ hlength) (by rw [hq]; rfl) (by rw [hq])⟩
    simp only [valueBody] at hbody
    grind [Pass.Sound, Out.Sound, ValueStep.Sound, Parser.read]
  · rintro t m n ch ch' more v ⟨hmarked, hstate, hlength, hh⟩ hbody
    exact ⟨hmarked.add [ch], valueBody_next hstate hlength hh hbody⟩

/-- The assertions of `s_body_identity` and `s_chunk_data`, and what they hand on. -/
theorem takeBody_sound (h : Sound 1 p m) (hs : p.state = .bodyIdentity ∨ p.state = .chunkData)
    (ch : Byte) (rest : Bytes) : let (q, m', _, _) := takeBody p m ch rest
    q.state = p.state ∧ q.flags = p.flags ∧ Marked p.state m' ∧ q.contentLength < ullongMax := by
  have hmark : p.state.mark = some .body := by
    rcases hs with hs | hs <;> rw [hs] <;> rfl
  have hset := h.marked.set (fun k hk => Option.some_inj.mp (hk.symm.trans hmark)) hmark
  have hlength := h.length
  have hzero := h.data hs.symm
  refine ⟨rfl, rfl, hset.add _, ?_⟩
  dsimp only
  omega

theorem pass_sound (h : Sound 1 p m) (ch : Byte) (rest : Bytes) : (pass p m ch rest).Sound := by
  unfold pass
  split
  · rename_i hs
    exact fieldLoop_sound hs h ch rest
  · rename_i hs
    exact valueLoop_sound hs h ch rest
  · rename_i hs
    have hbody := takeBody_sound h (.inl hs) ch rest
    unfold bodyIdentity
    split
    · rename_i hfails
      exact hfails.elim (h.data (.inr hs)) (h.size (.inr (.inr (.inr (.inr hs)))))
    · generalize takeBody p m ch rest = taken at hbody
      obtain ⟨q, m', ch', rest'⟩ := taken
      obtain ⟨hstate, -, hmarked, hlength⟩ := hbody
      rw [hs] at hstate hmarked
      dsimp only
      split
      · exact Sound.to (hmarked.clear (t := .messageDone) rfl rfl) (Nat.le_of_lt hlength) rfl rfl
      · have hadd := hmarked.add [ch']
        have hnot := Nat.ne_of_lt hlength
        have hle := Nat.le_of_lt hlength
        change Sound 0 q (m'.add [ch'])
        constructor <;> simp_all
  · rename_i hs
    have hset := h.marked.set (fun k hk => Option.some_inj.mp (hk.symm.trans (by rw [hs]; rfl)))
      (t := .bodyIdentityEof) rfl
    exact Sound.to ((hset.add _).add _) h.length (by rw [hs]; rfl) (by rw [hs])
  · rename_i hs
    have hbody := takeBody_sound h (.inr hs) ch rest
    have hflag := h.chunked (.inr (.inr (.inr (.inr (.inl hs)))))
    unfold chunkData
    split
    · rename_i hfails
      have hzero := h.data (.inl hs)
      have hsize := h.size (.inr (.inr (.inr (.inl hs))))
      simp [hflag, hzero, hsize] at hfails
    · generalize takeBody p m ch rest = taken at hbody
      obtain ⟨q, m', ch', rest'⟩ := taken
      obtain ⟨hstate, hflags, hmarked, hlength⟩ := hbody
      rw [hs] at hstate hmarked
      rw [← hflags] at hflag
      have hadd := hmarked.add [ch']
      have hnext := hadd.next (t := .chunkDataAlmostDone) rfl
      have hnot := Nat.ne_of_lt hlength
      have hle := Nat.le_of_lt hlength
      dsimp only
      split
      · change Sound 0 _ (m'.add [ch'])
        constructor <;> simp_all
      · change Sound 0 q (m'.add [ch'])
        constructor <;> simp_all
  · rename_i hfield hvalue hbody heof hchunk
    apply switch_sound h
    cases hs : p.state <;> first | rfl | contradiction

/-! ## Calls -/

/-- What holds between calls. -/
def Parser.Good (p : Parser) : Prop := p.httpErrno ≠ .ok ∨ Sound 0 p (.start p.state)

theorem init_good (t : ParserType) : (Parser.init t).Good := by
  right
  cases t <;> exact Sound.to (.start _) (Nat.zero_le _) rfl rfl

/-- What holds at every point of the loop. -/
def Point.Sound : Point → Prop
  | .head p m _ => HttpExecute.Sound 0 p m
  | .label p m _ _ => HttpExecute.Sound 1 p m
  | .count _ p m ch _ => HttpExecute.Sound 0 p (m.add [ch]) ∧ p.state ≠ .chunkSizeStart
  | .flush _ p _ => HttpExecute.Sound 0 p (.start p.state)
  | .ended (.returned p _) => p.Good
  | .ended .aborted => False

theorem stop_good {e : HttpErrno} (he : e ≠ .ok) (p : Parser) (unread : Nat) :
    (stop p e unread).Sound := .inl he

theorem cbErrno_ne (e : ParserEvent) : cbErrno e ≠ .ok := by
  intro heq
  cases e <;> cases heq

theorem countHeaderSize_sound {n : Nat} {rest : Bytes} {next : Parser → Point}
    (hnext : (next (p.read n)).Sound) : (countHeaderSize p n rest next).Sound := by
  unfold countHeaderSize
  dsimp only
  split
  · exact stop_good (by decide) _ _
  · exact hnext

/-- Where a pass leads that ends so. -/
theorem Control.point_sound {m : Marks} {ch : Byte} {rest : Bytes} {call : Option ParserEvent}
    {control : Control} (h : (Out.go p m call control).Sound ch) :
    (control.point p m ch rest).Sound := by
  cases control with
  | next => exact h
  | count n => exact h
  | reexecute => exact h
  | leave => exact .inr h

/-- `F_SKIPBODY` and `upgrade` are not asserted anywhere. -/
theorem Out.Sound.answer {call : Option ParserEvent} {control : Control}
    (h : (Out.go p m call control).Sound ch) (upgrade : Bool) :
    (Out.go { p with flags := { p.flags with skipBody := true }, upgrade } m call control).Sound
      ch := by
  have hsame : ∀ n m, HttpExecute.Sound n p m →
      HttpExecute.Sound n { p with flags := { p.flags with skipBody := true }, upgrade } m :=
    fun n m hp => ⟨hp.marked, hp.length, hp.field, hp.value, hp.chunked, hp.size, hp.data, hp.almost,
      hp.start⟩
  cases control with
  | next => exact hsame _ _ h
  | count n => exact ⟨hsame _ _ h.1, h.2⟩
  | reexecute => exact hsame _ _ h
  | leave => exact hsame _ _ h

theorem head_sound {rest : Bytes} (h : (Point.head p m rest).Sound) {x : Point}
    (hturn : turn (.head p m rest) = .pass x) : x.Sound := by
  cases rest with
  | nil =>
    rw [turn, if_pos (Marked.count_le h.marked)] at hturn
    cases hturn
    exact ⟨.start _, h.length, h.field, h.value, h.chunked, h.size, h.data, h.almost, h.start⟩
  | cons ch rest =>
    have hlabel : p.state.parsingHeader = true → Sound 1 (p.read 1) m := fun _ =>
      ⟨h.marked, h.length, h.field, h.value, h.chunked, h.size, h.data, h.almost, fun hs => by
        rw [Parser.read, h.start hs]⟩
    rw [turn, Lib.Turn.pass.injEq] at hturn
    rw [← hturn]
    split
    · rename_i hheader
      exact countHeaderSize_sound (hlabel hheader)
    · rename_i hheader
      refine ⟨h.marked, h.length, h.field, h.value, h.chunked, h.size, h.data, h.almost, fun hs => ?_⟩
      rw [hs] at hheader
      exact absurd rfl hheader

/-- One turn keeps it. -/
theorem turn_sound {x : Point} (h : x.Sound) :
    match turn x with
    | .pass x' => x'.Sound
    | .ask _ next => ∀ answer, (next answer).Sound
    | .done r => (Point.ended r).Sound := by
  cases x with
  | head p m rest =>
    cases hturn : turn (.head p m rest) with
    | pass x' => exact head_sound h hturn
    | ask e next => cases rest <;> cases hturn
    | done r => cases rest <;> cases hturn
  | label p m ch rest =>
    have hpass := pass_sound h ch rest
    rw [turn]
    generalize pass p m ch rest = out at hpass
    obtain ⟨out, ch', rest'⟩ := out
    cases out with
    | go p' m' call control =>
      cases call with
      | none => exact Control.point_sound hpass
      | some e =>
        intro answer
        unfold answered
        split
        · exact Control.point_sound hpass
        · split
          · exact Control.point_sound (Out.Sound.answer hpass true)
          · split
            · exact Control.point_sound (Out.Sound.answer hpass p'.upgrade)
            · exact stop_good (cbErrno_ne e) _ _
    | fail p' e => exact stop_good hpass p' _
    | abort => exact hpass.elim
  | count n p m ch rest =>
    obtain ⟨hsound, hs⟩ := h
    exact countHeaderSize_sound ⟨hsound.marked, hsound.length, hsound.field, hsound.value,
      hsound.chunked, hsound.size, hsound.data, hsound.almost, fun hstate => absurd hstate hs⟩
  | flush left p m =>
    cases left with
    | nil => exact .inr h
    | cons k left =>
      rw [turn]
      cases m.call k with
      | none => exact h
      | some e =>
        intro answer
        dsimp only
        split
        · exact h
        · exact stop_good (cbErrno_ne e) _ _
  | ended r => exact h

variable {C : Type} (on : C → ParserEvent → Int × C)

theorem executeEof_good (h : p.Good) (c : C) : (executeEof on p c).2.1.Good := by
  unfold executeEof
  split
  · dsimp only
    split
    · exact h
    · exact .inl fun hok => by cases hok
  · exact h
  · exact h
  · exact h
  · exact h
  · exact .inl fun hok => by cases hok

/-- A call returns. -/
theorem execute_good (h : p.Good) (c : C) (data : Bytes) :
    ∃ c' q n, execute on p c data = some (c', q, n) ∧ q.Good := by
  unfold execute
  split
  · exact ⟨c, p, 0, rfl, h⟩
  · rename_i hok
    split
    · exact ⟨_, _, _, rfl, executeEof_good on h c⟩
    · have hstart : (Point.head p (.start p.state) data).Sound := h.resolve_left hok
      have hrun : (Point.ended (loop.run on c (.head p (.start p.state) data)).2).Sound := by
        refine loop.run_keeps (Q := fun r => (Point.ended r).Sound) ?_ ?_ ?_ hstart c
        · intro x x' hx hturn
          have hnext := turn_sound hx
          rwa [show turn x = .pass x' from hturn] at hnext
        · intro x e next answer hx hturn
          have hnext := turn_sound hx
          rw [show turn x = .ask e next from hturn] at hnext
          exact hnext answer
        · intro x r hx hturn
          have hnext := turn_sound hx
          rwa [show turn x = .done r from hturn] at hnext
      generalize loop.run on c (.head p (.start p.state) data) = out at hrun
      obtain ⟨c', r⟩ := out
      cases r with
      | returned q unread => exact ⟨c', q, _, rfl, hrun⟩
      | aborted => exact hrun.elim

/-- The calls for the pieces, one after the other; `none` where an assertion fails. -/
def calls (on : C → ParserEvent → Int × C) (p : Parser) (c : C) : List Bytes → Option (C × Parser)
  | [] => some (c, p)
  | data :: pieces =>
    match execute on p c data with
    | some (c, p, _) => calls on p c pieces
    | none => none

/-- **No assertion fails.** A parser of any type gets any pieces one after the other, also behind
an error, and the callbacks return whatever they like. -/
theorem calls_returned (t : ParserType) (c : C) (pieces : List Bytes) :
    ∃ c' p, calls on (.init t) c pieces = some (c', p) := by
  have hcalls : ∀ p c, p.Good → ∃ c' q, calls on p c pieces = some (c', q) := by
    induction pieces with
    | nil => exact fun p c _ => ⟨c, p, rfl⟩
    | cons data pieces ih =>
      intro p c hp
      obtain ⟨c', q, n, hexec, hq⟩ := execute_good on hp c data
      rw [calls, hexec]
      exact ih q c' hq
  exact hcalls _ c (init_good t)

end Tubekit.HttpExecute
