import Tubekit.Buffer.Runs
import Tubekit.Lib.Transition

/-!
# What a buffer admits

A write is admitted when the unread bytes and the new ones are within the limit together, and
nothing else matters: not where the cursors are, nor how much storage there is, nor what was done
before. `blank_space` is a safe estimate of that room, since it does not count what has been read.
-/

namespace Tubekit.Buffer

open Lib.Transition

/-- A call of a public member. -/
inductive Call where
  | op (op : Op)
  | forceGetReadPtr

/-- No sum of sizes of this call wraps; a limit is an `uint64_t`. -/
def Unwrapped (b : Buffer) : Call → Prop
  | .op op => op.limit < 2 ^ 64 ∧ b.content.length + op.written < 2 ^ 64
  | .forceGetReadPtr => True

instance (b : Buffer) : (call : Call) → Decidable (b.Unwrapped call)
  | .op _ => inferInstanceAs (Decidable (_ ∧ _))
  | .forceGetReadPtr => isTrue trivial

def call (b : Buffer) : Call → Buffer
  | .op op => (b.apply op).2
  | .forceGetReadPtr => b.forceGetReadPtr.2

/-- A buffer from its constructor on. -/
def system : System Buffer Call where
  init b := ∃ heap, b = new heap
  next b c := if b.Unwrapped c then some (b.call c) else none

theorem wf_reachable {b : Buffer} (h : system.Reachable b) : Wf b := by
  apply h.invariant
  · rintro b ⟨heap, rfl⟩
    exact wf_new heap
  · intro b c b' _ hwf hnext
    simp only [system] at hnext
    split at hnext
    case isFalse => cases hnext
    case isTrue hc =>
      cases hnext
      cases c with
      | op op => exact (apply_fifoStep hwf hc.1 hc.2).1
      | forceGetReadPtr =>
        obtain ⟨data, b', hptr, -, hwf', -, -⟩ := forceGetReadPtr_spec hwf
        rw [call, hptr]
        exact hwf'

/-- What is read depends on the content only. -/
theorem read_congr {b b' : Buffer} (h : Wf b) (h' : Wf b') (hcontent : b'.content = b.content)
    (dest : Bool) (size : Nat) : (b'.read dest size).1 = (b.read dest size).1 := by
  by_cases hs : dest = false ∨ size = 0
  · obtain ⟨c, hread, -⟩ := read_throws h hs
    obtain ⟨c', hread', -⟩ := read_throws h' hs
    rw [hread, hread']
  · simp only [not_or, Bool.not_eq_false] at hs
    obtain ⟨rfl, hsize⟩ := hs
    obtain ⟨c, hread, -⟩ := read_spec h (Nat.pos_of_ne_zero hsize)
    obtain ⟨c', hread', -⟩ := read_spec h' (Nat.pos_of_ne_zero hsize)
    rw [hread, hread', hcontent]

/-- A write that does not wrap succeeds exactly when it is within the limit. -/
theorem write_ok_iff {b : Buffer} (h : Wf b) {source : List Byte} (hne : source ≠ [])
    (hwrap : b.content.length + source.length < 2 ^ 64) :
    (b.write (some source)).1 = .ok source.length ↔
      b.content.length + source.length ≤ b.limitMax := by
  obtain ⟨b', -, -, hcase⟩ := write_spec h hne hwrap
  split at hcase
  · next hle => simp [hcase.1, hle]
  · next hgt => simp [hcase.1, hgt]

/-- A write that fails leaves the content as it was. -/
theorem write_error {b : Buffer} (h : Wf b) {source : List Byte} (hne : source ≠ [])
    (hwrap : b.content.length + source.length < 2 ^ 64) {error : BufferError}
    (herror : (b.write (some source)).1 = .error error) :
    Wf (b.write (some source)).2 ∧ (b.write (some source)).2.content = b.content := by
  obtain ⟨b', hwf, -, hcase⟩ := write_spec h hne hwrap
  split at hcase
  · rw [hcase.1] at herror
    cases herror
  · rw [hcase.1]
    exact ⟨hwf, hcase.2⟩

/-- What `blank_space` reports is room for a write. -/
theorem write_blankSpace {b : Buffer} (h : Wf b) {source : List Byte} (hne : source ≠ [])
    (hle : source.length ≤ b.blankSpace.1) :
    (b.blankSpace.2.write (some source)).1 = .ok source.length := by
  obtain ⟨b', hblank, hwf, hcontent, hlimit, -⟩ := blankSpace_spec h
  rw [hblank] at hle ⊢
  have hunread : b.content.length ≤ b.writeOff := by
    rw [content, Lib.Memory.length_load]
    exact Nat.sub_le _ _
  have hpos : 0 < source.length := List.length_pos_of_ne_nil hne
  have hmax := h.maxLimit
  have hroom : b'.content.length + source.length ≤ b'.limitMax := by
    rw [hcontent, hlimit]
    simp only at hle
    omega
  apply (write_ok_iff hwf hne ?_).mpr hroom
  rw [hlimit] at hroom
  omega

/-- **Admission.** Whatever was done with a buffer before: a write of at least one byte succeeds
exactly when the unread bytes and the new ones are within the limit; a write of at most
`blank_space` bytes succeeds; and what can be read after a write that failed is what could be read
before. -/
theorem write_admitted {b : Buffer} (hreach : system.Reachable b) {source : List Byte}
    (hne : source ≠ []) :
    (b.content.length + source.length < 2 ^ 64 →
      ((b.write (some source)).1 = .ok source.length ↔
        b.content.length + source.length ≤ b.limitMax) ∧
      ∀ error, (b.write (some source)).1 = .error error → ∀ dest size,
        ((b.write (some source)).2.read dest size).1 = (b.read dest size).1) ∧
    (source.length ≤ b.blankSpace.1 →
      (b.blankSpace.2.write (some source)).1 = .ok source.length) := by
  have hwf := wf_reachable hreach
  refine ⟨fun hwrap => ⟨write_ok_iff hwf hne hwrap, ?_⟩, write_blankSpace hwf hne⟩
  intro error herror dest size
  obtain ⟨hwf', hcontent⟩ := write_error hwf hne hwrap herror
  exact read_congr hwf hwf' hcontent dest size

/-- After 600 of 1000 bytes have been read, 624 more are just admitted, and 24 are known to be. -/
theorem write_admitted_behind_read : ∃ b : Buffer, system.Reachable b ∧
    (b.write (some (List.replicate 624 8))).1 = .ok 624 ∧
    (b.write (some (List.replicate 625 8))).1 ≠ .ok 625 ∧
    (b.blankSpace.2.write (some (List.replicate 24 8))).1 = .ok 24 := by
  have hrun : (system.exec (new fun _ => 0)
      [.op (.write (some (List.replicate 1000 7))), .op (.read true 600)]).map
      (fun b => (b.content.length, b.limitMax, b.blankSpace.1)) = some (400, 1024, 24) := by
    decide +kernel
  obtain ⟨b, hexec, hb⟩ := Option.map_eq_some_iff.mp hrun
  simp only [Prod.mk.injEq] at hb
  obtain ⟨hcontent, hlimit, hblank⟩ := hb
  have hreach : system.Reachable b := .run (.start ⟨_, rfl⟩) (.of_exec hexec)
  have hne : ∀ {n : Nat}, 0 < n → List.replicate n (8 : Byte) ≠ [] := fun hn heq => by
    simp [List.replicate_eq_nil_iff, Nat.ne_of_gt hn] at heq
  refine ⟨b, hreach, ?_, ?_, ?_⟩
  · have h := ((write_admitted hreach (hne (n := 624) (by decide))).1
      (by rw [hcontent, List.length_replicate]; decide)).1
    rw [hcontent, hlimit, List.length_replicate] at h
    exact h.mpr (by decide)
  · have h := ((write_admitted hreach (hne (n := 625) (by decide))).1
      (by rw [hcontent, List.length_replicate]; decide)).1
    rw [hcontent, hlimit, List.length_replicate] at h
    exact fun hok => absurd (h.mp hok) (by decide)
  · have h := (write_admitted hreach (hne (n := 24) (by decide))).2
    rw [hblank, List.length_replicate] at h
    exact h (by decide)

end Tubekit.Buffer
