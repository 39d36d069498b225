import Connaxis.WebSocket.Reassembly

namespace Connaxis.WebSocket

open List Utf8

variable {σ : Type} {e : WsEnv σ} {cli : WsClient} {hs : σ} {opCode : UInt8} {fin rsv1 : Bool}

/-- The connection was closed in answer to the fragment `f`, after those `before` it, and
nothing was handed over. -/
structure RefusedAt (s : Session σ) (before : List Fragment) (f : Fragment)
    (code : Nat) : Prop where
  closed : s.closed = true
  outs : s.outs = outsOf [] before ++ f.outs (buildCloseWithCode code)
  delivered : s.delivered = []

/-- The text that was received can no longer become valid. -/
def Doomed (text : Bytes) (after : List Fragment) : Prop :=
  ¬ Extendable text ∨ after = [] ∧ valid text = false

/-- The ways a text message ends that goes on with `parts` after the text `body`. -/
inductive Judged (e : WsEnv σ) (s : Session σ) (body : Bytes) (parts : List Fragment) : Prop
  | oversize (before : List Fragment) (f : Fragment) (after : List Fragment)
      (split : parts = before ++ f :: after)
      (long : Oversize e (body ++ joined (before ++ [f])).length)
        (refused : RefusedAt s before f 1009)
  | invalid (before : List Fragment) (f : Fragment) (after : List Fragment)
      (split : parts = before ++ f :: after) (alive : Extendable (body ++ joined before))
      (doomed : Doomed (body ++ joined (before ++ [f])) after) (refused : RefusedAt s before f 1007)
  | delivered (valid : valid (body ++ joined parts) = true) (goesOn : s.closed = false)
      (once : s.delivered = [body ++ joined parts])

theorem joined_cons (f : Fragment) (parts : List Fragment) :
    joined (f :: parts) = f.data ++ joined parts := rfl

theorem joined_append (before after : List Fragment) :
    joined (before ++ after) = joined before ++ joined after := by
  rw [joined, map_append, flatten_append]
  rfl

theorem joined_one (f : Fragment) : joined [f] = f.data := append_nil _

/-- A fragment that was stored moves from the parts to the text. -/
theorem Judged.later {s : Session σ} {body : Bytes} {f : Fragment} {parts : List Fragment}
    (judged : Judged e s (body ++ f.data) parts) :
    Judged e { s with outs := f.outs [] ++ s.outs } body (f :: parts) := by
  have outs (before : List Fragment) (g : Fragment) (code : Nat)
    (refused : RefusedAt s before g code) :
      RefusedAt { s with outs := f.outs [] ++ s.outs } (f :: before) g code := by
    refine ⟨refused.closed, ?_, refused.delivered⟩
    have silent (rest : List Fragment) :
      (if rest.isEmpty then ([] : Bytes) else []) = [] := ite_self _
    rw [refused.outs, outsOf, silent, append_assoc]
  cases judged with
  | oversize before g after split long refused =>
    refine .oversize (f :: before) g after (by rw [split]; rfl) ?_ (outs before g _ refused)
    rw [cons_append, joined_cons, ← append_assoc]
    exact long
  | invalid before g after split alive doomed refused =>
    refine .invalid (f :: before) g after (by rw [split]; rfl) ?_ ?_ (outs before g _ refused)
    · rw [joined_cons, ← append_assoc]
      exact alive
    rw [cons_append, joined_cons, ← append_assoc]
    exact doomed
  | delivered valid goesOn once =>
    rw [append_assoc, ← joined_cons] at valid once
    exact .delivered valid goesOn once

section Verdict

variable {f : Fragment} {body : Bytes}

/-- A frame that closes the connection ends the message. -/
theorem Fragment.Sendable.processFrames_refused (sendable : f.Sendable e) (low : opCode < 3)
    {code : Nat} {cli' : WsClient}
    (done : processData e cli hs fin rsv1 opCode f.data = refuse cli' hs code) (more : List Bytes) :
    RefusedAt (processFrames e cli hs (f.frames fin rsv1 opCode ++ more)) [] f code := by
  have run := sendable.processFrames_frames low done
  rw [processFrames_closed (by rw [run]), run]
  exact ⟨rfl, rfl, rfl⟩

/-- What becomes of a fragment of a text decides about the message. -/
theorem addFragment_judged {first : WsClient} (sendable : f.Sendable e) (low : opCode < 3)
    (parts : List Fragment) (alive : Extendable body)
    (receiving : Receiving first MessageText false body) {fragmentedText : Bool}
    (begun : processData e cli hs parts.isEmpty rsv1 opCode f.data =
      addFragment e first hs parts.isEmpty fragmentedText f.data)
    (checked : parts = [] → fragmentedText = true)
    (rest : ∀ cli', Receiving cli' MessageText false (body ++ f.data) →
      Extendable (body ++ f.data) → parts ≠ [] →
      Judged e (processFrames e cli' hs (continued parts)) (body ++ f.data) parts) :
    Judged e (processFrames e cli hs (f.frames parts.isEmpty rsv1 opCode ++ continued parts)) body
      (f :: parts) := by
  have whole : body ++ joined ([] ++ [f]) = body ++ f.data := by rw [nil_append, joined_one]
  have cases := addFragment_cases (e := e) hs parts.isEmpty fragmentedText f.data receiving.holds
  rw [← begun] at cases
  generalize step : processData e cli hs parts.isEmpty rsv1 opCode f.data = r at cases
  cases cases with
  | oversize cli' same why =>
    exact .oversize [] f parts rfl (whole.symm ▸ why)
      (sendable.processFrames_refused low step (continued parts))
  | badText cli' same within text plain bad =>
    refine .invalid [] f parts rfl ((append_nil body).symm ▸ alive) ?_
      (sendable.processFrames_refused low step (continued parts))
    rw [whole]
    cases parts with
    | nil => exact .inr ⟨rfl, Bool.eq_false_iff.mpr bad⟩
    | cons g parts => exact .inl bad
  | more cli' same within open_ holds first' kind fine =>
    have filled : parts ≠ [] := fun void => by rw [void] at open_; cases open_
    have extendable : Extendable (body ++ f.data) := by
      have fine := fine receiving.first receiving.kind
      rw [open_] at fine
      exact fine
    rw [processFrames_append (sendable.processFrames_frames low step)]
    exact (rest cli' ⟨first'.trans receiving.first, kind.trans receiving.kind, holds⟩ extendable
      filled).later
  | last cli' same within ends first' fine =>
    have void : parts = [] := isEmpty_iff.mp ends
    have valid : valid (body ++ f.data) = true := by
      have fine := fine receiving.first receiving.kind
      rw [ends] at fine
      exact fine
    have handed := finishMessage_delivers (e := e) hs true first' (show MessageText ≠ 0 by decide)
      (show expand e false _ = .ok _ from rfl) within
      (fun _ unchecked => by cases unchecked)
    rw [receiving.first, receiving.kind, checked void, handed] at step
    rw [processFrames_append (sendable.processFrames_frames low step), void]
    refine .delivered ?_ rfl ?_
    · rw [joined_one]
      exact valid
    rw [joined_one]
    rfl

theorem continued_judged (parts : List Fragment) (filled : parts ≠ [])
    (sendable : ∀ f ∈ parts, f.Sendable e) (alive : Extendable body)
    (receiving : Receiving cli MessageText false body) :
    Judged e (processFrames e cli hs (continued parts)) body parts := by
  induction parts generalizing cli body with
  | nil => exact absurd rfl filled
  | cons f parts ih =>
    refine addFragment_judged (sendable f mem_cons_self) (by decide) parts alive receiving
      (processData_next hs _ _ (by rw [receiving.first]; decide)) ?_ ?_
    · rw [receiving.first, receiving.kind]
      exact fun _ => rfl
    intro cli' receiving' alive' more
    exact ih more (fun g member => sendable g (mem_cons_of_mem _ member)) alive' receiving'

theorem text_judged (hs : σ) (first : Fragment) (rest : List Fragment) (idle : cli.Idle)
    (sendable : ∀ f ∈ first :: rest, f.Sendable e) :
    Judged e (processFrames e cli hs (Message.frames ⟨true, false, first, rest⟩)) []
      (first :: rest) := by
  have sent := sendable first mem_cons_self
  have empty : Extendable [] := valid_extendable rfl
  cases rest with
  | cons g more =>
    refine addFragment_judged sent (Message.op_low _) (g :: more) empty
      (show Receiving { cli with firstop := MessageText, fragmentCompressed := false } MessageText
        false [] from ⟨rfl, rfl, idle.holds⟩)
      (processData_new hs false false first.data idle.first (.inl rfl) nofun) nofun ?_
    intro cli' receiving alive filled
    exact continued_judged (g :: more) filled
      (fun f member => sendable f (mem_cons_of_mem _ member)) alive receiving
  | nil =>
    have single := processData_new (e := e) hs true false first.data idle.first
      (show MessageText = MessageText ∨ _ from .inl rfl) nofun
    rw [cond_true] at single
    have cases := finishMessage_cases (e := e) hs false false first.data idle.first
      (show MessageText ≠ 0 by decide)
    rw [← single] at cases
    generalize step : processData e cli hs true false MessageText first.data = r at cases
    change Judged e (processFrames e cli hs (first.frames true false MessageText ++ [])) [] [first]
    cases cases with
    | tooLarge why =>
      obtain failed | ⟨content, same, long⟩ := why
      · cases failed
      cases same
      refine .oversize [] first [] rfl (.inl ?_) (sent.processFrames_refused (by decide) step [])
      rw [nil_append, nil_append, joined_one]
      exact long
    | corrupt why => cases why
    | badText content same text unchecked invalid =>
      cases same
      refine .invalid [] first [] rfl empty (.inr ⟨rfl, ?_⟩)
        (sent.processFrames_refused (by decide) step [])
      rw [nil_append, nil_append, joined_one]
      exact invalid
    | delivered content same within valid =>
      cases same
      rw [processFrames_append (sent.processFrames_frames (by decide) step)]
      refine .delivered ?_ rfl ?_
      · rw [nil_append, joined_one]
        exact valid rfl rfl
      rw [nil_append, joined_one]
      rfl

end Verdict

/-- Unless the size stops it, a text message is handed over just when it is valid as a
whole; otherwise the connection is closed at the first fragment after which it cannot be. -/
theorem text_verdict (e : WsEnv σ) (cli : WsClient) (hs : σ) (first : Fragment)
    (rest : List Fragment) (idle : cli.Idle) (sendable : ∀ f ∈ first :: rest, f.Sendable e) :
    let parts := first :: rest
    let s := processFrames e cli hs (Message.frames ⟨true, false, first, rest⟩)
    (∃ before f after, parts = before ++ f :: after ∧
        Oversize e (joined (before ++ [f])).length ∧ RefusedAt s before f 1009) ∨
      (s.closed = false ∧ s.delivered = [joined parts] ↔ valid (joined parts) = true) ∧
        (valid (joined parts) = false →
          ∃ before f after, parts = before ++ f :: after ∧ Extendable (joined before) ∧
            Doomed (joined (before ++ [f])) after ∧ RefusedAt s before f 1007) := by
  intro parts s
  cases text_judged hs first rest idle sendable with
  | oversize before f after split long refused =>
    exact .inl ⟨before, f, after, split, long, refused⟩
  | invalid before f after split alive doomed refused =>
    refine .inr ⟨iff_of_false (fun both => nomatch both.1.symm.trans refused.closed) ?_,
      fun _ => ⟨before, f, after, split, alive, doomed, refused⟩⟩
    intro valid
    have whole : joined parts = joined (before ++ [f]) ++ joined after := by
      rw [← joined_append, List.append_assoc, List.singleton_append, ← split]
    rw [List.nil_append] at doomed
    obtain dead | ⟨void, invalid⟩ := doomed
    · exact dead ⟨joined after, whole ▸ valid⟩
    rw [whole, void, show joined [] = [] from rfl, List.append_nil, invalid] at valid
    cases valid
  | delivered valid goesOn once =>
    refine .inr ⟨iff_of_true ⟨goesOn, once⟩ valid, fun invalid => ?_⟩
    exact nomatch valid.symm.trans invalid

theorem text_verdict_broken :
    let key : Option (FixedBytes 4) := some #v[1, 2, 3, 4]
    let first : Fragment := ⟨[], key, [0xc3]⟩
    let rest : List Fragment := [⟨[], key, [104]⟩, ⟨[], key, [105]⟩]
    let s := processFrames greeter (.fresh 5 true) () (Message.frames ⟨true, false, first, rest⟩)
    s.outs = [[], buildCloseWithCode 1007] ∧ ∃ before f after,
      first :: rest = before ++ f :: after ∧
      Doomed (joined (before ++ [f])) after ∧ RefusedAt s before f 1007 := by
  intro key first rest s
  have sendable : ∀ f ∈ first :: rest, f.Sendable greeter := by
    intro f member
    simp only [first, rest, List.mem_cons, List.not_mem_nil, or_false] at member
    rcases member with rfl | rfl | rfl <;> exact ⟨nofun, fun _ => rfl, by decide⟩
  have silent : s.outs = [[], buildCloseWithCode 1007] := by decide
  refine ⟨silent, ?_⟩
  rcases text_verdict greeter (.fresh 5 true) () first rest ⟨rfl, rfl, rfl⟩ sendable with
    ⟨before, f, after, _, _, refused⟩ | ⟨_, refused⟩
  · have last := congrArg List.getLast? (refused.outs.symm.trans silent)
    rw [Fragment.outs, ← List.append_assoc, List.getLast?_concat] at last
    exact absurd last (by decide)
  obtain ⟨before, f, after, split, _, doomed, refusedAt⟩ := refused (by decide)
  exact ⟨before, f, after, split, doomed, refusedAt⟩

end Connaxis.WebSocket
