import Connaxis.Evhandler.HttpDispatch

namespace Connaxis.Evhandler

open List Runs Option
open Function (update update_self update_of_ne)

/-- The requests of one connection among those with the given numbers. -/
def pick (requests : List Nat) (c : Nat) (ks : List Nat) : List Nat :=
  ks.filter fun k => requests[k]? = some c

section Pick

variable {requests ks more : List Nat} {c e k : Nat}

theorem pick_append : pick requests c (ks ++ more) = pick requests c ks ++ pick requests c more :=
  filter_append ..

theorem pick_later (inside : ∀ k ∈ ks, k < requests.length) :
    pick (requests ++ [e]) c ks = pick requests c ks := by
  refine filter_congr fun k member => ?_
  rw [getElem?_append_left (inside k member)]

theorem pick_new : pick (requests ++ [e]) c [requests.length] =
    if e = c then [requests.length] else [] := by
  unfold pick
  by_cases same : e = c <;> simp [same]

theorem pick_own (own : requests[k]? = some c) :
    pick requests c (k :: ks) = k :: pick requests c ks :=
  filter_cons_of_pos (decide_eq_true own)

theorem pick_foreign (own : requests[k]? = some e) (other : e ≠ c) :
    pick requests c (k :: ks) = pick requests c ks := by
  refine filter_cons_of_neg fun is => other ?_
  exact some.inj (own.symm.trans (of_decide_eq_true is))

end Pick

namespace HttpSys

variable (d : HttpHandlerDispatcher) (conns : Conns)

/-- The jobs of a worker, the one it is at first. -/
def jobs (s : HttpSys) (w : Nat) : List Nat := (s.serving w).toList ++ s.queues w

/-- The jobs of a connection. -/
def todo (s : HttpSys) (c : Nat) : List Nat := pick s.requests c (s.jobs (worker d conns c))

/-- `AddCmd` on a connection finds room in the channel of its loop. -/
def Room (s : HttpSys) (c : Nat) : Prop :=
  (s.chans (conns.loop c)).length < conns.chanSize (conns.loop c)

instance (s : HttpSys) (c : Nat) : Decidable (s.Room conns c) :=
  inferInstanceAs (Decidable (_ < _))

/-- What a connection needs in a step. A dispatch finds room for the job or for the close in
its place, and no such close waits from before. The worker gets a buffer for the response and
room for its command, unless the connection has been closed. -/
def Smooth (c : Nat) (s : HttpSys) : Label → Prop
  | .dispatch e => e = c → .close c ∉ s.chans (conns.loop c) ∧
      ((s.queues (worker d conns c)).length < d.queueSize ∨ s.Room conns c)
  | .serve w _ alloc => ∀ k ∈ s.serving w, s.requests[k]? = some c → s.closed c = false →
      alloc = true ∧ s.Room conns c
  | .take _ | .push _ | .consume _ | .hangup _ => True

instance (c : Nat) (s : HttpSys) : ∀ label, Decidable (s.Smooth d conns c label)
  | .dispatch e => inferInstanceAs (Decidable (e = c → _))
  | .serve w _ _ => inferInstanceAs (Decidable (∀ k ∈ s.serving w, _))
  | .take _ | .push _ | .consume _ | .hangup _ => isTrue trivial

/-- The requests of a connection are those that were answered and those that wait for their
worker, in this order. One more can be left out behind them, and then the connection is about
to be closed. -/
structure Ordered (c : Nat) (s : HttpSys) : Prop where
  jobs : ∀ w, ∀ k ∈ s.jobs w, ∃ e, s.requests[k]? = some e ∧ worker d conns e = w
  leading : s.acceptedOf c <+: s.requestsOf c
  whole : s.closed c = false → ∃ shed,
    s.requestsOf c = s.acceptedOf c ++ s.todo d conns c ++ shed ∧
      (shed = [] ∨ .close c ∈ s.chans (conns.loop c))

variable {d conns} {s s' : HttpSys} {c e k w l : Nat}

theorem Ordered.boot : Ordered d conns c boot :=
  ⟨nofun, prefix_rfl, fun _ => ⟨[], rfl, .inl rfl⟩⟩

theorem requestsOf_eq (s : HttpSys) (c : Nat) :
    s.requestsOf c = pick s.requests c (range s.requests.length) := rfl

theorem requestsOf_concat (same : s'.requests = s.requests ++ [e]) :
    s'.requestsOf c = s.requestsOf c ++ if e = c then [s.requests.length] else [] := by
  rw [requestsOf_eq, same, length_append, length_singleton, range_succ, pick_append,
    pick_later fun k member => mem_range.mp member, pick_new]
  rfl

theorem acceptedOf_concat {response : Response}
    (same : s'.accepted = s.accepted ++ [(e, k, response)]) :
    s'.acceptedOf c = s.acceptedOf c ++ if e = c then [k] else [] := by
  unfold acceptedOf
  rw [same, filter_append, map_append]
  by_cases own : e = c <;> simp [own]

variable (conns) in
/-- `AddCmd` fails, or the response is in the channel. -/
theorem serve_cases (s : HttpSys) (c k : Nat) (outcome : Option Response) (alloc : Bool) :
    serve conns s c k outcome alloc = s ∧ ¬ (alloc = true ∧ s.Room conns c) ∨
    ∃ response, serve conns s c k outcome alloc =
      { s with chans := update s.chans (conns.loop c)
                 (s.chans (conns.loop c) ++ [.data c k response])
               accepted := if s.closed c then s.accepted
                 else s.accepted ++ [(c, k, response)] } := by
  unfold serve addCmd
  dsimp only
  cases alloc with
  | false => exact .inl ⟨rfl, nofun⟩
  | true =>
    rw [if_pos rfl]
    split
    · rename_i t added
      split at added
      · cases added
        refine .inr ⟨outcome.getD internalServerError, ?_⟩
        dsimp only
        split <;> rfl
      · cases added
    · rename_i refused
      split at refused
      · cases refused
      · rename_i full
        exact .inl ⟨rfl, fun both => full both.2⟩

theorem mem_push {chans : Nat → List HttpCmd} {cmd close : HttpCmd} (r : Nat)
    (member : close ∈ chans r) : close ∈ update chans l (chans l ++ [cmd]) r := by
  by_cases here : r = l
  · subst here
    rw [update_self]
    exact mem_append_left _ member
  · rw [update_of_ne here]
    exact member

theorem Ordered.of_whole {shed : List Nat}
    (jobs : ∀ w, ∀ k ∈ s.jobs w, ∃ e, s.requests[k]? = some e ∧ worker d conns e = w)
    (whole : s.requestsOf c = s.acceptedOf c ++ s.todo d conns c ++ shed)
    (closes : shed = [] ∨ .close c ∈ s.chans (conns.loop c)) : Ordered d conns c s := by
  refine ⟨jobs, ?_, fun _ => ⟨shed, whole, closes⟩⟩
  rw [whole, append_assoc]
  exact prefix_append _ _

section

/-- A job joins the queue of a worker. -/
theorem jobs_enqueue (s : HttpSys) (w k r : Nat) :
    (s.serving r).toList ++ update s.queues w (s.queues w ++ [k]) r =
      s.jobs r ++ if r = w then [k] else [] := by
  by_cases here : r = w
  · rw [here, update_self, if_pos rfl, ← append_assoc]
    rfl
  · rw [update_of_ne here, if_neg here, append_nil]
    rfl

/-- A worker is done with its job. -/
theorem jobs_idle (s : HttpSys) (w r : Nat) : (update s.serving w none r).toList ++ s.queues r =
    if r = w then s.queues w else s.jobs r := by
  by_cases same : r = w
  · rw [same, update_self, if_pos rfl]
    rfl
  · rw [update_of_ne same, if_neg same]
    rfl

variable (ordered : Ordered d conns c s)
include ordered

theorem Ordered.job_lt (member : k ∈ s.jobs w) : k < s.requests.length := by
  obtain ⟨e, found, -⟩ := ordered.jobs w k member
  exact (List.getElem?_eq_some_iff.mp found).1

/-- Nothing happens to the requests of the connection, and if it is still open then a close
that was waiting still waits. -/
theorem Ordered.keep (jobs : ∀ w, ∀ k ∈ s'.jobs w, ∃ e, s'.requests[k]? = some e ∧
      worker d conns e = w)
    (requests : s'.requestsOf c = s.requestsOf c) (accepted : s'.acceptedOf c = s.acceptedOf c)
    (todo : s'.todo d conns c = s.todo d conns c)
    (live : s'.closed c = false → s.closed c = false ∧
      (.close c ∈ s.chans (conns.loop c) → .close c ∈ s'.chans (conns.loop c))) :
    Ordered d conns c s' := by
  refine ⟨jobs, by rw [requests, accepted]; exact ordered.leading, fun isOpen => ?_⟩
  obtain ⟨before, waits⟩ := live isOpen
  obtain ⟨shed, whole, closes⟩ := ordered.whole before
  rw [requests, accepted, todo]
  exact ⟨shed, whole, closes.imp_right waits⟩

/-- Only the channels change, and the command at their end is new. -/
theorem Ordered.push (l : Nat) (cmd : HttpCmd) :
    Ordered d conns c { s with chans := update s.chans l (s.chans l ++ [cmd]) } :=
  ordered.keep ordered.jobs rfl rfl rfl fun isOpen => ⟨isOpen, mem_push _⟩

/-- A request of the connection joins its others, as no close waits. -/
theorem Ordered.joins (isOpen : s.closed c = false)
    (quiet : .close c ∉ s.chans (conns.loop c)) (requests : s'.requests = s.requests ++ [c])
    (accepted : s'.acceptedOf c = s.acceptedOf c)
    (jobs : ∀ w, ∀ k ∈ s'.jobs w, ∃ e, s'.requests[k]? = some e ∧ worker d conns e = w)
    (shed : List Nat) (todo : s'.todo d conns c ++ shed = s.todo d conns c ++ [s.requests.length])
    (closes : shed = [] ∨ .close c ∈ s'.chans (conns.loop c)) : Ordered d conns c s' := by
  obtain ⟨before, whole, waits⟩ := ordered.whole isOpen
  rw [waits.resolve_right quiet, append_nil] at whole
  refine .of_whole jobs ?_ closes
  rw [requestsOf_concat requests, if_pos rfl, whole, accepted, append_assoc, append_assoc, todo]

theorem Ordered.dispatch (smooth : s.Smooth d conns c (.dispatch e)) (isOpen : s.closed e = false) :
    Ordered d conns c (dispatchHTTP d conns s e) := by
  have known {w k : Nat} (member : k ∈ s.jobs w) :
      ∃ t, (s.requests ++ [e])[k]? = some t ∧ worker d conns t = w := by
    obtain ⟨t, found, here⟩ := ordered.jobs w k member
    exact ⟨t, (getElem?_append_left (List.getElem?_eq_some_iff.mp found).1).trans found, here⟩
  have later : pick (s.requests ++ [e]) c (s.jobs (worker d conns c)) = s.todo d conns c :=
    pick_later fun k member => ordered.job_lt member
  unfold dispatchHTTP
  dsimp only
  split
  · have all : ∀ r, ∀ k ∈ (s.serving r).toList ++ update s.queues (worker d conns e)
        (s.queues (worker d conns e) ++ [s.requests.length]) r,
        ∃ u, (s.requests ++ [e])[k]? = some u ∧ worker d conns u = r := by
      intro r k member
      rw [jobs_enqueue] at member
      rcases mem_append.mp member with old | new
      · exact known old
      split at new
      · rename_i here
        rw [mem_singleton.mp new, here]
        exact ⟨e, getElem?_concat_length, rfl⟩
      · cases new
    by_cases mine : e = c
    · subst mine
      refine ordered.joins isOpen (smooth rfl).1 rfl rfl all [] ?_ (.inl rfl)
      rw [append_nil, todo, HttpSys.jobs, jobs_enqueue s, if_pos rfl, pick_append, later, pick_new,
        if_pos rfl]
    refine ordered.keep all ?_ rfl ?_ fun isOpen => ⟨isOpen, id⟩
    · rw [requestsOf_concat rfl, if_neg mine, append_nil]
    rw [todo, HttpSys.jobs, jobs_enqueue s, pick_append, later]
    split
    · rw [pick_new, if_neg mine, append_nil]
    · exact append_nil _
  rename_i full
  unfold addCmd
  dsimp only
  split
  · by_cases mine : e = c
    · subst mine
      refine ordered.joins isOpen (smooth rfl).1 rfl rfl (fun w k => known) [s.requests.length] ?_
        (.inr ?_)
      · exact congrArg (· ++ _) later
      · dsimp only [getD_some]
        rw [update_self]
        exact mem_append_right _ (mem_singleton_self _)
    refine ordered.keep (fun w k => known) ?_ rfl later fun isOpen => ⟨isOpen, mem_push _⟩
    rw [getD_some, requestsOf_concat rfl, if_neg mine, append_nil]
  rename_i crowded
  have other : e ≠ c := by
    rintro rfl
    exact (smooth rfl).2.elim full crowded
  refine ordered.keep (fun w k => known) ?_ rfl later fun isOpen => ⟨isOpen, id⟩
  rw [getD_none, requestsOf_concat rfl, if_neg other, append_nil]

theorem Ordered.take {rest : List Nat} (idle : s.serving w = none)
    (queue : s.queues w = k :: rest) :
    Ordered d conns c { s with queues := update s.queues w rest,
                               serving := update s.serving w (some k) } := by
  have same (r : Nat) : (update s.serving w (some k) r).toList ++ update s.queues w rest r =
      s.jobs r := by
    by_cases here : r = w
    · rw [here, update_self, update_self, HttpSys.jobs, idle, queue]
      rfl
    · rw [update_of_ne here, update_of_ne here]
      rfl
  refine ordered.keep (fun r j member => ?_) rfl rfl ?_ fun isOpen => ⟨isOpen, id⟩
  · rw [HttpSys.jobs, same] at member
    exact ordered.jobs r j member
  · rw [todo, HttpSys.jobs, same]
    rfl

/-- The worker is done with a request, and whatever becomes of the response, the job is gone. -/
theorem Ordered.serve (serving : s.serving w = some k) (mine : s.requests[k]? = some e)
    (outcome : Option Response) (alloc : Bool)
    (smooth : s.Smooth d conns c (.serve w outcome alloc)) :
    Ordered d conns c (serve conns { s with serving := update s.serving w none } e k outcome
      alloc) := by
  have first : s.jobs w = k :: s.queues w := by
    rw [HttpSys.jobs, serving]
    rfl
  have here : worker d conns e = w := by
    obtain ⟨t, found, is⟩ := ordered.jobs w k (first ▸ mem_cons_self)
    cases mine.symm.trans found
    exact is
  have jobs : ∀ r, ∀ j ∈ (update s.serving w none r).toList ++ s.queues r,
      ∃ u, s.requests[j]? = some u ∧ worker d conns u = r := by
    intro r j member
    refine ordered.jobs r j ?_
    rw [jobs_idle] at member
    split at member
    · rename_i same
      rw [same, first]
      exact mem_cons_of_mem _ member
    · exact member
  have left : pick s.requests c ((update s.serving w none (worker d conns c)).toList ++
      s.queues (worker d conns c)) =
      if e = c then (s.todo d conns c).tail else s.todo d conns c := by
    rw [jobs_idle, todo]
    by_cases own : e = c
    · subst own
      rw [if_pos here, if_pos rfl, here, first, pick_own mine]
      rfl
    rw [if_neg own]
    split
    · rename_i same
      rw [same, first, pick_foreign mine own]
    · rfl
  by_cases own : e = c
  · subst own
    rw [if_pos rfl] at left
    have head : s.todo d conns e = k :: (s.todo d conns e).tail := by
      rw [todo, here, first, pick_own mine]
      rfl
    rcases serve_cases conns { s with serving := update s.serving w none } e k outcome
      alloc with ⟨refused, full⟩ | ⟨response, added⟩
    · -- then the connection has been closed, and what was answered before stays
      rw [refused]
      refine ⟨jobs, ordered.leading, fun isOpen => ?_⟩
      exact absurd (smooth k serving mine isOpen) full
    rw [added]
    cases shut : s.closed e with
    | true =>
      refine ⟨jobs, ordered.leading, fun isOpen => ?_⟩
      cases shut.symm.trans isOpen
    | false =>
      obtain ⟨shed, whole, closes⟩ := ordered.whole shut
      have all : s.requestsOf e = s.acceptedOf e ++ [k] ++ (s.todo d conns e).tail ++ shed := by
        rw [whole, append_assoc (s.acceptedOf e) [k], singleton_append, ← head]
      simp only [Bool.false_eq_true, if_false]
      refine .of_whole jobs ?_ (closes.imp_right (mem_push _))
      rw [acceptedOf_concat rfl, if_pos rfl]
      rw [← left] at all
      exact all
  rw [if_neg own] at left
  have gone : Ordered d conns c { s with serving := update s.serving w none } :=
    ordered.keep jobs rfl rfl left fun isOpen => ⟨isOpen, id⟩
  rcases serve_cases conns { s with serving := update s.serving w none } e k outcome
    alloc with ⟨refused, -⟩ | ⟨response, added⟩
  · rw [refused]
    exact gone
  rw [added]
  refine gone.keep jobs rfl ?_ rfl fun isOpen => ⟨isOpen, mem_push _⟩
  split
  · rfl
  · rw [acceptedOf_concat rfl, if_neg own, append_nil]

theorem Ordered.close (e : Nat) :
    Ordered d conns c { s with closed := update s.closed e true } := by
  refine ordered.keep ordered.jobs rfl rfl rfl fun isOpen => ⟨?_, id⟩
  dsimp only at isOpen
  by_cases own : c = e
  · rw [own, update_self] at isOpen
    cases isOpen
  · rwa [update_of_ne own] at isOpen

/-- A command leaves a channel in front. -/
theorem Ordered.consume {cmd : HttpCmd} {rest : List HttpCmd} (chan : s.chans l = cmd :: rest) :
    Ordered d conns c (consumeCmd { s with chans := update s.chans l rest } cmd) := by
  have front (other : cmd ≠ .close c) :
      Ordered d conns c { s with chans := update s.chans l rest } := by
    refine ordered.keep ordered.jobs rfl rfl rfl fun isOpen => ⟨isOpen, fun waits => ?_⟩
    dsimp only
    by_cases here : conns.loop c = l
    · rw [here, chan] at waits
      rw [here, update_self]
      exact (mem_cons.mp waits).resolve_left other.symm
    · rwa [update_of_ne here]
  cases cmd with
  | other => exact front nofun
  | data e k response =>
    have left := front nofun
    dsimp only [consumeCmd]
    split
    · exact left
    · exact left.keep left.jobs rfl rfl rfl fun isOpen => ⟨isOpen, id⟩
  | close e =>
    by_cases own : e = c
    · refine ⟨ordered.jobs, ordered.leading, fun isOpen => ?_⟩
      dsimp only [consumeCmd] at isOpen
      rw [own, update_self] at isOpen
      cases isOpen
    · exact (front fun is => own (HttpCmd.close.inj is)).close e

theorem Ordered.step {label : Label} (smooth : s.Smooth d conns c label)
    (done : step d conns s label = some s') : Ordered d conns c s' := by
  unfold HttpSys.step at done
  cases label <;> dsimp only at done
  case dispatch e =>
    split at done
    · cases done
    rename_i isOpen
    cases done
    exact ordered.dispatch smooth (Bool.eq_false_iff.mpr isOpen)
  case take w =>
    split at done
    · rename_i k rest idle queue
      cases done
      exact ordered.take idle queue
    · cases done
  case serve w outcome alloc =>
    split at done
    · cases done
    rename_i k serving
    split at done
    · cases done
    rename_i e mine
    cases done
    exact ordered.serve serving mine outcome alloc smooth
  case push l =>
    split at done
    · cases done
      exact ordered.push l .other
    · cases done
  case consume l =>
    split at done
    · cases done
    rename_i cmd rest chan
    cases done
    exact ordered.consume chan
  case hangup e =>
    cases done
    exact ordered.close e

end

end HttpSys

open HttpSys

/-- For every dispatcher, every connection and every interleaving in which the connection gets
what it needs in each step: the responses that are accepted for it before it is closed are
those to its first requests, in their order. -/
theorem responses_leading (opts : HTTPHandlerOptions) (procs : Int) (conns : Conns)
    (labels : List HttpSys.Label) (s : HttpSys) (c : Nat)
    (smooth : Each (HttpSys.step (newHTTPHandlerDispatcher opts procs) conns)
      (fun s a _ => s.Smooth (newHTTPHandlerDispatcher opts procs) conns c a) HttpSys.boot labels)
    (done : run (HttpSys.step (newHTTPHandlerDispatcher opts procs) conns) HttpSys.boot
      labels = some s) :
    s.acceptedOf c <+: s.requestsOf c :=
  (run_invariant (fun _ _ _ taken allowed ordered => Ordered.step ordered allowed taken) done
    smooth .boot).leading

/-- One worker, and one loop whose channel has room for one command. -/
def narrow : Conns := ⟨fun _ => 1, fun _ => 0, fun _ => 1⟩

def greeting : Response := ⟨[72], by decide⟩

/-- Two requests are served and answered. -/
def answered : List HttpSys.Label :=
  [.dispatch 0, .dispatch 0, .take 0, .serve 0 (some greeting) true, .consume 0, .take 0,
    .serve 0 (some greeting) true, .consume 0]

theorem responses_leading_answered : ∃ s,
    run (HttpSys.step (newHTTPHandlerDispatcher ⟨1, 4⟩ 1) narrow) HttpSys.boot answered =
      some s ∧ s.acceptedOf 0 = [0, 1] ∧ s.acceptedOf 0 <+: s.requestsOf 0 :=
  ⟨_, rfl, rfl, responses_leading ⟨1, 4⟩ 1 narrow answered _ 0 (by decide) rfl⟩

/-- The channel is full when the first request has been served, and has room again when the
second has. -/
def shifted : List HttpSys.Label :=
  [.dispatch 0, .dispatch 0, .take 0, .push 0, .serve 0 (some greeting) true, .consume 0,
    .take 0, .serve 0 (some greeting) true, .consume 0]

theorem response_shifted : ∃ s,
    run (HttpSys.step (newHTTPHandlerDispatcher ⟨1, 4⟩ 1) narrow) HttpSys.boot shifted =
      some s ∧ s.closed 0 = false ∧ s.requestsOf 0 = [0, 1] ∧ s.acceptedOf 0 = [1] ∧
      s.deliveredOf 0 = [1] ∧ ¬ s.acceptedOf 0 <+: s.requestsOf 0 :=
  ⟨_, rfl, rfl, rfl, rfl, rfl, by decide⟩

end Connaxis.Evhandler
