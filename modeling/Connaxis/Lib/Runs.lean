import Mathlib.Data.List.Basic

/- Runs of a machine whose step function is partial: `step s a = none` says that
the label `a` is not enabled in `s`. A label carries every choice the
environment makes, so a run is the list of its labels. -/
namespace Runs

open List

variable {S L : Type}

def run (step : S → L → Option S) : S → List L → Option S
  | s, [] => some s
  | s, a :: rest => match step s a with
    | none => none
    | some next => run step next rest

/-- Every step of the run satisfies `P`. -/
def Each (step : S → L → Option S) (P : S → L → S → Prop) : S → List L → Prop
  | _, [] => True
  | s, a :: rest => ∀ next, step s a = some next → P s a next ∧ Each step P next rest

/-- Every label of the run satisfies `G` where it comes, also one that is not enabled there. -/
def Asks (step : S → L → Option S) (G : S → L → Prop) : S → List L → Prop
  | _, [] => True
  | s, a :: rest => G s a ∧ ∀ next, step s a = some next → Asks step G next rest

/-- What the steps of the run put out, in order. -/
def log {O : Type} (step : S → L → Option S) (out : S → L → Option O) : S → List L → List O
  | _, [] => []
  | s, a :: rest => match step s a with
    | none => []
    | some next => (out s a).toList ++ log step out next rest

variable {step : S → L → Option S}

instance decidableEach {P : S → L → S → Prop} [∀ s a next, Decidable (P s a next)] :
    ∀ (s : S) (labels : List L), Decidable (Each step P s labels)
  | _, [] => isTrue trivial
  | s, a :: rest => match taken : step s a with
    | none => isTrue fun next found => by rw [taken] at found; cases found
    | some next =>
      have := decidableEach (P := P) next rest
      decidable_of_iff (P s a next ∧ Each step P next rest)
        ⟨fun both other found => by rw [taken] at found; cases found; exact both,
          fun all => all next taken⟩

instance decidableAsks {G : S → L → Prop} [∀ s a, Decidable (G s a)] :
    ∀ (s : S) (labels : List L), Decidable (Asks step G s labels)
  | _, [] => isTrue trivial
  | s, a :: rest => match taken : step s a with
    | none => decidable_of_iff (G s a)
        ⟨fun now => ⟨now, fun next found => by rw [taken] at found; cases found⟩, And.left⟩
    | some next =>
      have := decidableAsks (G := G) next rest
      decidable_of_iff (G s a ∧ Asks step G next rest)
        ⟨fun both => ⟨both.1, fun other found => by rw [taken] at found; cases found; exact both.2⟩,
          fun all => ⟨all.1, all.2 next taken⟩⟩

@[simp] theorem run_nil (s : S) : run step s [] = some s := rfl

theorem run_cons (s next : S) (a : L) (rest : List L) (taken : step s a = some next) :
    run step s (a :: rest) = run step next rest := by
  simp only [run, taken]

variable {s final : S}

/-- Peel the first step off a completed run. -/
theorem run_cons_cases {a : L} {rest : List L} (done : run step s (a :: rest) = some final) :
    ∃ next, step s a = some next ∧ run step next rest = some final := by
  unfold run at done
  split at done
  · cases done
  rename_i next taken
  exact ⟨next, taken, done⟩

variable {labels more : List L}

/-- One run after the other. -/
theorem run_append {mid : S} (done : run step s labels = some mid) :
    run step s (labels ++ more) = run step mid more := by
  induction labels generalizing s with
  | nil =>
    cases done
    rfl
  | cons b rest ih =>
    obtain ⟨next, first, remaining⟩ := run_cons_cases done
    exact (run_cons s next b (rest ++ more) first).trans (ih remaining)

/-- One step more at the end of a run. -/
theorem run_snoc {mid : S} {a : L} (done : run step s labels = some mid)
    (taken : step mid a = some final) : run step s (labels ++ [a]) = some final := by
  rw [run_append done]
  exact run_cons mid final a [] taken

variable {P : S → L → S → Prop}

/-- A property of the labels alone. -/
theorem each_of_forall (all : ∀ a ∈ labels, ∀ s next, P s a next) (s : S) :
    Each step P s labels := by
  induction labels generalizing s with
  | nil => trivial
  | cons a rest ih =>
    exact fun next _ => ⟨all a mem_cons_self s next,
      ih (fun b member => all b (mem_cons_of_mem _ member)) next⟩

theorem asks_of_forall {G : S → L → Prop} (all : ∀ s a, G s a) (s : S) (labels : List L) :
    Asks step G s labels := by
  induction labels generalizing s with
  | nil => trivial
  | cons a rest ih => exact ⟨all s a, fun next _ => ih next⟩

variable {Q : S → L → S → Prop}

theorem Each.imp (each : Each step P s labels) (weaker : ∀ s a next, P s a next → Q s a next) :
    Each step Q s labels := by
  induction labels generalizing s with
  | nil => trivial
  | cons a rest ih =>
    intro next taken
    obtain ⟨now, later⟩ := each next taken
    exact ⟨weaker s a next now, ih later⟩

theorem Each.and (first : Each step P s labels) (second : Each step Q s labels) :
    Each step (fun s a next => P s a next ∧ Q s a next) s labels := by
  induction labels generalizing s with
  | nil => trivial
  | cons a rest ih =>
    intro next taken
    obtain ⟨now, later⟩ := first next taken
    obtain ⟨now', later'⟩ := second next taken
    exact ⟨⟨now, now'⟩, ih later later'⟩

theorem Each.front (each : Each step P s (labels ++ more)) : Each step P s labels := by
  induction labels generalizing s with
  | nil => trivial
  | cons a rest ih =>
    intro next taken
    obtain ⟨now, later⟩ := each next taken
    exact ⟨now, ih later⟩

theorem Each.append (each : Each step P s labels)
    (further : ∀ mid, run step s labels = some mid → Each step P mid more) :
    Each step P s (labels ++ more) := by
  induction labels generalizing s with
  | nil => exact further s rfl
  | cons a rest ih =>
    intro next taken
    obtain ⟨now, later⟩ := each next taken
    exact ⟨now, ih later fun mid done => further mid ((run_cons _ _ _ _ taken).trans done)⟩

variable {G : S → L → Prop} {I : S → Prop}

/-- The invariant rule: a property that every step allowed by `G` keeps holds
after every run whose steps `G` allows. -/
theorem run_invariant (kept : ∀ s a next, step s a = some next → G s a → I s → I next)
    (done : run step s labels = some final) (allowed : Each step (fun s a _ => G s a) s labels)
    (start : I s) : I final := by
  induction labels generalizing s with
  | nil =>
    cases done
    exact start
  | cons a rest ih =>
    obtain ⟨next, taken, remaining⟩ := run_cons_cases done
    obtain ⟨guarded, further⟩ := allowed next taken
    exact ih remaining further (kept s a next taken guarded start)

theorem run_invariant_all (kept : ∀ s a next, step s a = some next → I s → I next)
    (done : run step s labels = some final) (start : I s) : I final :=
  run_invariant (G := fun _ _ => True) (fun s a next taken _ => kept s a next taken) done
    (each_of_forall (fun _ _ _ _ => trivial) s) start

/-- The invariant rule for a property of the state and of all that has been put out. -/
theorem run_log_invariant {O : Type} {out : S → L → Option O} {I : List O → S → Prop}
    (kept : ∀ seen s a next, step s a = some next → P s a next → I seen s →
      I (seen ++ (out s a).toList) next) (done : run step s labels = some final)
    (allowed : Each step P s labels) {seen : List O} (start : I seen s) :
    I (seen ++ log step out s labels) final := by
  induction labels generalizing s seen with
  | nil =>
    cases done
    rw [log, append_nil]
    exact start
  | cons a rest ih =>
    obtain ⟨next, taken, remaining⟩ := run_cons_cases done
    obtain ⟨guarded, further⟩ := allowed next taken
    have later := ih remaining further (kept seen s a next taken guarded start)
    rw [append_assoc] at later
    simpa only [log, taken] using later

/-- What every step allowed by `G` does from a state with the invariant, every step of
such a run does. -/
theorem each_of_invariant
    (kept : ∀ s a next, step s a = some next → G s a → I s → P s a next ∧ I next)
    (allowed : Each step (fun s a _ => G s a) s labels) (start : I s) : Each step P s labels := by
  induction labels generalizing s with
  | nil => trivial
  | cons a rest ih =>
    intro next taken
    obtain ⟨guarded, further⟩ := allowed next taken
    obtain ⟨does, later⟩ := kept s a next taken guarded start
    exact ⟨does, ih further later⟩

/-- A run in which every call can be made from a state with the invariant goes through. -/
theorem run_total {G : S → L → Prop}
    (goes : ∀ s a, G s a → I s → ∃ next, step s a = some next ∧ I next ∧ P s a next) (start : I s)
    (asks : Asks step G s labels) :
    (∃ final, run step s labels = some final ∧ I final) ∧ Each step P s labels := by
  induction labels generalizing s with
  | nil => exact ⟨⟨s, rfl, start⟩, trivial⟩
  | cons a rest ih =>
    obtain ⟨next, taken, held, does⟩ := goes s a asks.1 start
    have later := ih held (asks.2 next taken)
    rw [run_cons s next a rest taken]
    refine ⟨later.1, fun other found => ?_⟩
    rw [taken] at found
    cases found
    exact ⟨does, later.2⟩

/-- Two properties of the single steps that agree on every state an invariant
allows agree on whole runs. -/
theorem each_congr (kept : ∀ s a next, step s a = some next → I s → I next)
    (same : ∀ s a next, I s → step s a = some next → (P s a next ↔ Q s a next)) (start : I s) :
    Each step P s labels ↔ Each step Q s labels := by
  induction labels generalizing s with
  | nil => exact Iff.rfl
  | cons a rest ih =>
    refine forall_congr' fun next => forall_congr' fun taken => ?_
    exact and_congr (same s a next start taken) (ih (kept s a next taken start))

/-- A property that a step keeps exactly when `G` allows it holds all along a run exactly when
`G` allows every step. -/
theorem fronts_iff (kept : ∀ s a, I s → ∃ next, step s a = some next ∧ (I next ↔ G s a))
    (start : I s) :
    (∀ front, front <+: labels → ∃ final, run step s front = some final ∧ I final) ↔
      Each step (fun s a _ => G s a) s labels := by
  induction labels generalizing s with
  | nil =>
    refine iff_of_true (fun front part => ?_) trivial
    rw [prefix_nil.mp part]
    exact ⟨s, rfl, start⟩
  | cons a rest ih =>
    obtain ⟨next, taken, exact⟩ := kept s a start
    constructor
    · intro all other found
      cases taken.symm.trans found
      have here (front : List L) (part : front <+: rest) := all (a :: front)
        (cons_prefix_cons.mpr ⟨rfl, part⟩)
      simp only [run_cons s next a _ taken] at here
      obtain ⟨_, ran, held⟩ := here [] nil_prefix
      cases ran
      exact ⟨exact.mp held, (ih held).mp here⟩
    intro each front part
    obtain ⟨guarded, further⟩ := each next taken
    cases front with
    | nil => exact ⟨s, rfl, start⟩
    | cons b front =>
      obtain ⟨rfl, later⟩ := cons_prefix_cons.mp part
      rw [run_cons s next b front taken]
      exact (ih (exact.mpr guarded)).mpr further front later

/-- A result that is computed, with what is computed of it. -/
theorem computed {result : Option S} {P : S → Prop} (there : result.isSome = true := by decide)
    (facts : ∀ s ∈ result, P s := by decide) : ∃ s, result = some s ∧ P s := by
  obtain ⟨s, is⟩ := Option.isSome_iff_exists.mp there
  exact ⟨s, is, facts s is⟩

end Runs
