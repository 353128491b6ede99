import QudoPqc.Monitor.Runs

/-!
# Entropy health tests

The continuous health tests of `qudo_fips_rand.c`: the repetition count test and the adaptive
proportion test, each a small automaton whose state stays in globals between calls.

## The invariant

After the bytes `xs` have been accepted, the state is a function of `xs` (`Tracks`): the repetition
count test holds the length of the run `xs` ends with, and the adaptive proportion test the first
byte of the open window, its number of occurrences there and the length of the window, or the
sentinel `0` if no window is open. So a call accepts one more byte exactly when `xs` with that byte
is still `Healthy`, and where the calls were cut does not matter.
-/

namespace Random

open Monitor

/-! ## The code -/

/-- `FIPS_ENTROPY_H`. -/
def entropyH : ℕ := 8

/-- `rct_critical`. -/
def rctCritical : List ℕ := [41, 21, 11, 8, 6, 5, 5, 4, 4]

/-- `apt_critical`. -/
def aptCritical : List ℕ := [410, 311, 177, 103, 62, 39, 25, 18, 13]

/-- `FIPS_APT_WINDOW`. -/
def aptWindow : ℕ := 512

/-- `rct_critical[FIPS_ENTROPY_H]`. -/
def rctCutoff : ℕ := rctCritical.getD entropyH 0

/-- `apt_critical[FIPS_ENTROPY_H]`. -/
def aptCutoff : ℕ := aptCritical.getD entropyH 0

theorem rctCutoff_eq : rctCutoff = 4 := rfl

/-- The globals `g_rct_a`, `g_rct_b`, `g_apt_a`, `g_apt_b` and `g_apt_i`. -/
structure Health where
  rctA : UInt8
  rctB : ℕ
  aptA : UInt8
  aptB : ℕ
  aptI : ℕ
  deriving DecidableEq, Repr

/-- The globals at load, and as `qudo_fips_rand_cleanup` writes them. -/
def Health.reset : Health := ⟨0, 0, 0, 0, 0⟩

/-- `rct_test`. -/
def rctTest (s : Health) (next : UInt8) : Bool × Health :=
  if s.rctB ≠ 0 ∧ next = s.rctA then
    (decide (s.rctB + 1 < rctCutoff), { s with rctB := s.rctB + 1 })
  else (true, { s with rctA := next, rctB := 1 })

/-- The end of `apt_test`: the window advances, and closes when it is full. -/
def aptAdvance (s : Health) : Bool × Health :=
  if s.aptI + 1 ≥ aptWindow then (true, { s with aptI := s.aptI + 1, aptB := 0 })
  else (true, { s with aptI := s.aptI + 1 })

/-- `apt_test`. -/
def aptTest (s : Health) (next : UInt8) : Bool × Health :=
  if s.aptB ≠ 0 then
    if next = s.aptA then
      if s.aptB + 1 ≥ aptCutoff then (false, { s with aptB := 0 })
      else aptAdvance { s with aptB := s.aptB + 1 }
    else aptAdvance s
  else (true, { s with aptA := next, aptB := 1, aptI := 1 })

/-- `continuous_health_test`. The result `some i` is the return of `0` in round `i` of the loop,
and `none` the return of `1` after it. -/
def continuousHealthTest (s : Health) : List UInt8 → Option ℕ × Health
  | [] => (none, s)
  | b :: buf =>
    if !(rctTest s b).1 then (some 0, (rctTest s b).2)
    else if !(aptTest (rctTest s b).2 b).1 then (some 0, (aptTest (rctTest s b).2 b).2)
    else
      let r := continuousHealthTest (aptTest (rctTest s b).2 b).2 buf
      (r.1.map (· + 1), r.2)

/-- Calls of `continuous_health_test` on one chunk after the other, up to the first that fails.
The result `some i` is the position in the whole stream at which it fails. -/
def feed (s : Health) : List (List UInt8) → Option ℕ × Health
  | [] => (none, s)
  | chunk :: chunks =>
    match continuousHealthTest s chunk with
    | (some i, s') => (some i, s')
    | (none, s') =>
      let r := feed s' chunks
      (r.1.map (· + chunk.length), r.2)

/-! ## What the tests are for -/

/-- A window is in order if its first byte occurs fewer than `aptCutoff` times in it. -/
def WindowOk (w : List UInt8) : Prop := ∀ a ∈ w.head?, w.count a < aptCutoff

/-- The stream has no run of `rctCutoff` equal bytes, and every window of `aptWindow` bytes is in
order. -/
def Healthy (xs : List UInt8) : Prop :=
  ¬ HasRun rctCutoff xs ∧ EveryWindow aptWindow WindowOk xs

/-- The repetition count test has seen `xs`. -/
structure TracksRun (xs : List UInt8) (s : Health) : Prop where
  rctB_eq : s.rctB = leadRun xs.reverse
  rctA_eq : ∀ a ∈ xs.reverse.head?, s.rctA = a

/-- The adaptive proportion test has seen the bytes `w` of the open window. -/
structure TracksWindow (w : List UInt8) (s : Health) : Prop where
  aptB_eq : s.aptB = (w.head?.map (w.count ·)).getD 0
  aptA_eq : ∀ a ∈ w.head?, s.aptA = a
  aptI_eq : w ≠ [] → s.aptI = w.length

/-- The state that belongs to the accepted bytes `xs`. -/
structure Tracks (xs : List UInt8) (s : Health) : Prop where
  run : TracksRun xs s
  window : TracksWindow (openWindow aptWindow xs) s

theorem tracksWindow_nil {t : Health} (h : t.aptB = 0) : TracksWindow [] t where
  aptB_eq := h
  aptA_eq := fun _ h ↦ absurd h (Option.not_mem_none _)
  aptI_eq := fun h ↦ absurd rfl h

theorem tracks_reset : Tracks [] Health.reset where
  run := ⟨rfl, fun _ h ↦ absurd h (Option.not_mem_none _)⟩
  window := by
    rw [openWindow_nil]
    exact tracksWindow_nil rfl

theorem windowOk_nil : WindowOk [] := fun _ h ↦ absurd h (Option.not_mem_none _)

theorem WindowOk.of_append {w : List UInt8} {b : UInt8} (h : WindowOk (w ++ [b])) : WindowOk w := by
  intro a ha
  have hhead : a ∈ (w ++ [b]).head? := by
    rw [List.head?_append, ha]
    rfl
  have hcount := h a hhead
  rw [List.count_append] at hcount
  omega

theorem healthy_nil : Healthy [] :=
  ⟨not_hasRun_nil 3, fun k ↦ by rw [window_nil]; exact windowOk_nil⟩

/-- One more byte is in order if it extends neither test to its cutoff. -/
theorem healthy_append_singleton {xs : List UInt8} {b : UInt8} :
    Healthy (xs ++ [b]) ↔
      Healthy xs ∧ leadRun (b :: xs.reverse) < rctCutoff ∧
        WindowOk (openWindow aptWindow xs ++ [b]) := by
  rw [Healthy, Healthy, rctCutoff_eq, hasRun_append_singleton,
    everyWindow_append_singleton (by decide) xs b (fun _ _ h ↦ h.of_append), not_or, not_le]
  tauto

theorem Healthy.of_append {xs ys : List UInt8} (h : Healthy (xs ++ ys)) : Healthy xs := by
  induction ys using List.reverseRecOn with
  | nil => rwa [List.append_nil] at h
  | append_singleton ys b ih =>
    rw [← List.append_assoc] at h
    exact ih (healthy_append_singleton.mp h).1

/-! ## One byte -/

variable {xs : List UInt8} {s : Health}

/-- The repetition count test counts the run the stream ends with. -/
theorem rctTest_eq (h : TracksRun xs s) (b : UInt8) :
    rctTest s b = (decide (leadRun (b :: xs.reverse) < rctCutoff),
      { s with rctA := b, rctB := leadRun (b :: xs.reverse) }) := by
  have hB := h.rctB_eq
  have hA := h.rctA_eq
  generalize xs.reverse = ys at hB hA ⊢
  cases ys with
  | nil =>
    rw [rctTest, if_neg (fun hne ↦ hne.1 hB)]
    rfl
  | cons a ys =>
    have ha : s.rctA = a := hA a rfl
    have hpos : s.rctB ≠ 0 := by
      rw [hB, leadRun]
      split <;> omega
    rw [rctTest, ha]
    split
    case isTrue heq =>
      obtain ⟨-, rfl⟩ := heq
      rw [leadRun_cons_self, ← hB, ← ha]
    case isFalse hne =>
      have hhead : (a :: ys).head? ≠ some b := fun heq ↦ hne ⟨hpos, (Option.some.inj heq).symm⟩
      rw [leadRun_cons_of_ne hhead]
      rfl

theorem tracksRun_append {b : UInt8} {t : Health} (hA : t.rctA = b)
    (hB : t.rctB = leadRun (b :: xs.reverse)) : TracksRun (xs ++ [b]) t := by
  have hrev : (xs ++ [b]).reverse = b :: xs.reverse := by
    rw [List.reverse_append, List.reverse_singleton, List.singleton_append]
  refine ⟨by rw [hrev, hB], fun a ha ↦ ?_⟩
  rw [hrev] at ha
  exact hA.trans (Option.some.inj ha)

/-- Advancing the window keeps the state in step with it: it grows, or closes. -/
theorem aptAdvance_tracks {w : List UInt8} {a b : UInt8} {t : Health}
    (hA : t.aptA = a) (hB : t.aptB = (a :: (w ++ [b])).count a) (hI : t.aptI = w.length + 1) :
    (aptAdvance t).1 = true ∧
      TracksWindow (if w.length + 2 ≥ aptWindow then [] else a :: (w ++ [b])) (aptAdvance t).2 := by
  rw [aptAdvance, hI]
  split
  · exact ⟨rfl, tracksWindow_nil rfl⟩
  · refine ⟨rfl, hB, fun c hc ↦ hA.trans (Option.some.inj hc), fun _ ↦ ?_⟩
    rw [List.length_cons, List.length_append, List.length_singleton]

/-- The adaptive proportion test fails exactly when the window with the new byte is not in order. -/
theorem aptTest_spec {w : List UInt8} (h : TracksWindow w s) (hok : WindowOk w) (b : UInt8) :
    ((aptTest s b).1 = true ↔ WindowOk (w ++ [b])) ∧
      ((aptTest s b).1 = true →
        TracksWindow (if w.length + 1 ≥ aptWindow then [] else w ++ [b]) (aptTest s b).2) := by
  have hB := h.aptB_eq
  cases w with
  | nil =>
    have hB : s.aptB = 0 := hB
    rw [aptTest, if_neg (fun hne ↦ hne hB)]
    have hnew : WindowOk ([] ++ [b]) := by
      rintro a ⟨⟩
      rw [List.nil_append, List.count_singleton_self]
      decide
    refine ⟨iff_of_true rfl hnew, fun _ ↦ ⟨?_, fun a ha ↦ Option.some.inj ha, fun _ ↦ rfl⟩⟩
    exact (List.count_singleton_self (a := b)).symm
  | cons a w =>
    have hA : s.aptA = a := h.aptA_eq a rfl
    have hI : s.aptI = w.length + 1 := h.aptI_eq (List.cons_ne_nil _ _)
    have hB : s.aptB = (a :: w).count a := hB
    have hpos : s.aptB ≠ 0 := by
      rw [hB, List.count_cons_self]
      omega
    have hcount : (a :: (w ++ [b])).count a = s.aptB + if b = a then 1 else 0 := by
      rw [← List.cons_append, List.count_append, hB, List.count_singleton]
      simp only [beq_iff_eq]
    have hnew : WindowOk (a :: w ++ [b]) ↔ s.aptB + (if b = a then 1 else 0) < aptCutoff := by
      rw [← hcount]
      exact ⟨fun hw ↦ hw a rfl, fun hlt c hc ↦ Option.some.inj hc ▸ hlt⟩
    rw [aptTest, if_pos hpos, hA, hnew]
    split
    case isTrue hba =>
      rw [if_pos hba] at hcount
      split
      case isTrue hfail =>
        exact ⟨iff_of_false Bool.false_ne_true (by omega), nofun⟩
      case isFalse hpass =>
        obtain ⟨htrue, htracks⟩ := aptAdvance_tracks
          (t := { s with aptA := a, aptB := s.aptB + 1 }) rfl hcount.symm hI
        exact ⟨iff_of_true htrue (by omega), fun _ ↦ htracks⟩
    case isFalse hba =>
      rw [if_neg hba] at hcount
      have hlt : s.aptB < aptCutoff := hB ▸ hok a rfl
      obtain ⟨htrue, htracks⟩ := aptAdvance_tracks hA hcount.symm hI
      exact ⟨iff_of_true htrue hlt, fun _ ↦ htracks⟩

theorem aptTest_run (s : Health) (b : UInt8) :
    (aptTest s b).2.rctA = s.rctA ∧ (aptTest s b).2.rctB = s.rctB := by
  rw [aptTest]
  split_ifs
  · exact ⟨rfl, rfl⟩
  · rw [aptAdvance]
    split_ifs <;> exact ⟨rfl, rfl⟩
  · rw [aptAdvance]
    split_ifs <;> exact ⟨rfl, rfl⟩
  · exact ⟨rfl, rfl⟩

/-- Both tests pass exactly when the stream stays healthy, and then the state follows it. -/
theorem tests_spec (h : Tracks xs s) (hok : Healthy xs) (b : UInt8) :
    ((rctTest s b).1 = true ∧ (aptTest (rctTest s b).2 b).1 = true ↔ Healthy (xs ++ [b])) ∧
      ((rctTest s b).1 = true → (aptTest (rctTest s b).2 b).1 = true →
        Tracks (xs ++ [b]) (aptTest (rctTest s b).2 b).2) := by
  have hopen : WindowOk (openWindow aptWindow xs) := by
    rw [← window_open (by decide) xs]
    exact hok.2 _
  rw [rctTest_eq h.run, decide_eq_true_iff, healthy_append_singleton]
  obtain ⟨hiff, htracks⟩ := aptTest_spec (s := { s with
    rctA := b, rctB := leadRun (b :: xs.reverse) }) ⟨h.window.1, h.window.2, h.window.3⟩ hopen b
  refine ⟨by rw [hiff, and_iff_right hok], fun _ hpass ↦ ⟨?_, ?_⟩⟩
  · obtain ⟨hA, hB⟩ := aptTest_run { s with rctA := b, rctB := leadRun (b :: xs.reverse) } b
    exact tracksRun_append hA hB
  · have hnext := openWindow_append_singleton (by decide : 0 < aptWindow) xs b
    have hlt := Nat.mod_lt xs.length (by decide : 0 < aptWindow)
    rw [hnext, ← length_openWindow]
    have hlen := length_openWindow aptWindow xs
    rw [if_congr (show (openWindow aptWindow xs).length + 1 = aptWindow ↔
      (openWindow aptWindow xs).length + 1 ≥ aptWindow by omega) rfl rfl]
    exact htracks hpass

/-! ## Whole streams -/

/-- A call accepts while the stream is healthy, and fails at the first byte with which it is not. -/
theorem continuousHealthTest_spec (h : Tracks xs s) (hok : Healthy xs) (buf : List UInt8) :
    ((continuousHealthTest s buf).1 = none →
        Healthy (xs ++ buf) ∧ Tracks (xs ++ buf) (continuousHealthTest s buf).2) ∧
      ∀ i, (continuousHealthTest s buf).1 = some i →
        i < buf.length ∧ Healthy (xs ++ buf.take i) ∧ ¬ Healthy (xs ++ buf.take (i + 1)) := by
  induction buf generalizing xs s with
  | nil =>
    rw [List.append_nil]
    exact ⟨fun _ ↦ ⟨hok, h⟩, nofun⟩
  | cons b buf ih =>
    obtain ⟨hiff, htracks⟩ := tests_spec h hok b
    have hfail : ∀ t : Health, ¬ Healthy (xs ++ [b]) →
        ((some 0, t).1 = (none : Option ℕ) → Healthy (xs ++ b :: buf) ∧ Tracks (xs ++ b :: buf) t) ∧
          ∀ i, (some 0, t).1 = some i →
            i < (b :: buf).length ∧ Healthy (xs ++ (b :: buf).take i) ∧
              ¬ Healthy (xs ++ (b :: buf).take (i + 1)) := by
      intro t hbad
      refine ⟨nofun, ?_⟩
      rintro i ⟨⟩
      exact ⟨Nat.succ_pos _, by rwa [List.take_zero, List.append_nil], hbad⟩
    rw [continuousHealthTest]
    split
    case isTrue hrct =>
      exact hfail _ fun hgood ↦ by simp [(hiff.mpr hgood).1] at hrct
    case isFalse hrct =>
      split
      case isTrue hapt =>
        exact hfail _ fun hgood ↦ by simp [(hiff.mpr hgood).2] at hapt
      case isFalse hapt =>
        have hpass : (rctTest s b).1 = true ∧ (aptTest (rctTest s b).2 b).1 = true := by
          simpa using And.intro hrct hapt
        obtain ⟨hnone, hsome⟩ := ih (htracks hpass.1 hpass.2) (hiff.mp hpass)
        rw [List.append_cons]
        refine ⟨fun hr ↦ hnone (Option.map_eq_none_iff.mp hr), fun i hi ↦ ?_⟩
        obtain ⟨j, hj, rfl⟩ := Option.map_eq_some_iff.mp hi
        obtain ⟨hlt, hgood, hbad⟩ := hsome j hj
        refine ⟨Nat.succ_lt_succ hlt, ?_, ?_⟩
        · rwa [List.take_succ_cons, List.append_cons]
        · rwa [List.take_succ_cons, List.append_cons]

theorem continuousHealthTest_append (s : Health) (buf buf' : List UInt8) :
    continuousHealthTest s (buf ++ buf') =
      match continuousHealthTest s buf with
      | (some i, s') => (some i, s')
      | (none, s') =>
        ((continuousHealthTest s' buf').1.map (· + buf.length),
          (continuousHealthTest s' buf').2) := by
  induction buf generalizing s with
  | nil => simp [continuousHealthTest]
  | cons b buf ih =>
    rw [List.cons_append, continuousHealthTest, continuousHealthTest]
    split
    · rfl
    · split
      · rfl
      · rw [ih]
        match continuousHealthTest (aptTest (rctTest s b).2 b).2 buf with
        | (some i, s') => rfl
        | (none, s') => simp [Function.comp_def, Nat.add_assoc]

/-- Where the stream is cut does not matter. -/
theorem feed_eq_flatten (s : Health) (chunks : List (List UInt8)) :
    feed s chunks = continuousHealthTest s chunks.flatten := by
  induction chunks generalizing s with
  | nil => rfl
  | cons chunk chunks ih =>
    rw [feed, List.flatten_cons, continuousHealthTest_append]
    match continuousHealthTest s chunk with
    | (some i, s') => rfl
    | (none, s') =>
      dsimp only
      rw [ih]

/-- From the reset state a stream is accepted exactly if it is healthy, and is otherwise refused at
the first byte that breaks it. -/
theorem continuousHealthTest_reset (buf : List UInt8) :
    ((continuousHealthTest .reset buf).1 = none ↔ Healthy buf) ∧
      ∀ i, (continuousHealthTest .reset buf).1 = some i →
        i < buf.length ∧ Healthy (buf.take i) ∧ ¬ Healthy (buf.take (i + 1)) := by
  obtain ⟨hnone, hsome⟩ := continuousHealthTest_spec tracks_reset healthy_nil buf
  simp only [List.nil_append] at hnone hsome
  refine ⟨⟨fun h ↦ (hnone h).1, fun hok ↦ ?_⟩, hsome⟩
  cases hresult : (continuousHealthTest .reset buf).1 with
  | none => rfl
  | some i =>
    rw [← List.take_append_drop (i + 1) buf] at hok
    exact absurd hok.of_append (hsome i hresult).2.2

end Random
