/-
  Redis/Waiting.lean --- waiting for a result in Redis (`kojin-redis`:
  `result_backend.rs`).

  `wait` is `get`, again and again, 100 ms apart.  Whatever the server answers and however
  long it takes, the loop ends: with what the last `GET` found, with the first command that
  failed, or after a last `GET` that found nothing, when the timeout is over.
-/
import Kojin.Foundation.Polling
import Kojin.Redis.Clients

set_option autoImplicit false

namespace Kojin.Redis

open Kojin.Foundation Kojin.Core

variable {σ : Type} [LinearOrder σ]

namespace RedisResultBackend

variable (b : RedisResultBackend) (decode : Decode) (id : TaskId)

/-- `Duration::from_millis(100)`, in nanoseconds. -/
def interval : Nat := 100000000

/-- The rounds that a timeout leaves time for. -/
def rounds (timeout : Nat) : Nat := (timeout + interval - 1) / interval + 1

/-- `wait`. -/
def wait (timeout : Nat) :
    Prog (timed (clientCommands σ)) (Option (Outcome KojinError Json)) :=
  poll (b.get decode id).run interval timeout (rounds timeout)

/-- The commands of a `get` that reach the server, and what the last one answers. -/
def asked (found : Option String) : List (Event (clientCommands σ)) :=
  [⟨.base .conn, .ok ()⟩, ⟨.get (b.keys.result id.toText), .ok found⟩]

variable {b decode id}

theorem interval_pos : 0 < interval := by decide

/-- What a `get` did, from its answer. -/
theorem trace_get {part : List (Event (clientCommands σ))} {answer : TaskResult (Option Json)}
    (h : (b.get decode id).run.Trace part answer) :
    (∀ v, answer = .ok (some v) → ∃ s, part = b.asked id (some s) ∧ decode s = .ok v) ∧
    (answer = .ok none → part = b.asked id none) ∧
    ∀ e, answer = .error e →
      (∃ e', e = backendErr e' ∧ (part = [⟨.base .conn, .error e'⟩] ∨
        part = [⟨.base .conn, .ok ()⟩, ⟨.get (b.keys.result id.toText), .error e'⟩])) ∨
      ∃ s e', e = .serialization e' ∧ part = b.asked id (some s) ∧ decode s = .error e' := by
  obtain ⟨r, rest, rfl, hrest⟩ := Prog.trace_call_iff.mp
    (show (Prog.call (I := clientCommands σ) (.base .conn) _).Trace part answer from h)
  rcases r with e' | u
  · obtain ⟨rfl, rfl⟩ := Prog.trace_ret_iff.mp hrest
    refine ⟨fun v hv => (by cases hv), fun hv => (by cases hv), fun e he => ?_⟩
    cases he
    exact .inl ⟨e', rfl, .inl rfl⟩
  · obtain ⟨r, rest', rfl, hlast⟩ := Prog.trace_call_iff.mp
      (show (Prog.call (I := clientCommands σ) (.get (b.keys.result id.toText)) _).Trace rest answer
        from hrest)
    rcases r with e' | _ | s
    · obtain ⟨rfl, rfl⟩ := Prog.trace_ret_iff.mp hlast
      refine ⟨fun v hv => (by cases hv), fun hv => (by cases hv), fun e he => ?_⟩
      cases he
      exact .inl ⟨e', rfl, .inr rfl⟩
    · obtain ⟨rfl, rfl⟩ := Prog.trace_ret_iff.mp hlast
      exact ⟨fun v hv => (by cases hv), fun _ => rfl, fun e he => (by cases he)⟩
    · have hdecoded : (ExceptT.run (m := Prog (clientCommands σ)) (do
          let v ← ExceptT.mk (pure ((decode s).mapError KojinError.serialization))
          pure (some v))).Trace rest' answer := hlast
      cases hs : decode s with
      | ok v =>
          rw [hs] at hdecoded
          obtain ⟨rfl, rfl⟩ := Prog.trace_ret_iff.mp hdecoded
          refine ⟨fun v' hv => ⟨s, rfl, ?_⟩, fun hv => (by cases hv), fun e he => (by cases he)⟩
          cases hv
          exact hs
      | error e' =>
          rw [hs] at hdecoded
          obtain ⟨rfl, rfl⟩ := Prog.trace_ret_iff.mp hdecoded
          refine ⟨fun v hv => (by cases hv), fun hv => (by cases hv), fun e he => ?_⟩
          cases he
          exact .inr ⟨s, e', rfl, rfl, hs⟩

/-- What a `wait` does as long as nothing comes of it: it gets a connection, its `GET`
finds nothing, the deadline is not reached, it sleeps. -/
def Vain (b : RedisResultBackend) (id : TaskId) (deadline : Nat)
    (e : Event (timed (clientCommands σ))) : Prop :=
  e = ⟨.base (.base .conn), .ok ()⟩ ∨ e = ⟨.base (.get (b.keys.result id.toText)), .ok none⟩ ∨
    (∃ now, now < deadline ∧ e = ⟨.instant, now⟩) ∨ e = ⟨.sleep interval, ()⟩

/-- How a `wait` may end, by what it did since the deadline was set. -/
def EndsRightly (b : RedisResultBackend) (decode : Decode) (id : TaskId) (deadline : Nat)
    (tr : List (Event (timed (clientCommands σ)))) (outcome : Outcome KojinError Json) : Prop :=
  ∃ before last, tr = before ++ last ∧ (∀ e ∈ before, b.Vain id deadline e) ∧
    match outcome with
    | .found v => ∃ s, last = (b.asked id (some s)).map Prog.timedEvent ∧ decode s = .ok v
    | .failed e => (∃ e' op, e = backendErr e' ∧ last = [⟨.base op, .error e'⟩]) ∨
        ∃ s e', last = (b.asked id (some s)).map Prog.timedEvent ∧ decode s = .error e' ∧
          e = .serialization e'
    | .timedOut => ∃ now, last = (b.asked id none).map Prog.timedEvent ++ [⟨.instant, now⟩] ∧
        deadline ≤ now

/-- Rounds that find nothing are in vain. -/
theorem vain_of_fruitless {deadline : Nat} {tr : List (Event (timed (clientCommands σ)))}
    (h : Fruitless (b.get decode id).run interval deadline tr) :
    ∀ e ∈ tr, b.Vain id deadline e := by
  induction h with
  | nil => exact fun _ he => (List.not_mem_nil he).elim
  | round hpart hnow _ ih =>
      obtain rfl := (trace_get hpart).2.1 rfl
      intro e he
      rcases List.mem_append.mp he with he | he
      · simp only [asked, Prog.timedEvent, List.map_cons, List.map_nil, List.mem_append,
          List.mem_cons, List.not_mem_nil, or_false] at he
        rcases he with (rfl | rfl) | rfl | rfl
        · exact .inl rfl
        · exact .inr (.inl rfl)
        · exact .inr (.inr (.inl ⟨_, hnow, rfl⟩))
        · exact .inr (.inr (.inr rfl))
      · exact ih e he

theorem endsRightly_of_closes {deadline : Nat} {tr : List (Event (timed (clientCommands σ)))}
    {outcome : Outcome KojinError Json}
    (h : Closes (b.get decode id).run interval deadline tr outcome) :
    EndsRightly b decode id deadline tr outcome := by
  cases h with
  | found hbefore hpart =>
      obtain ⟨s, rfl, hs⟩ := (trace_get hpart).1 _ rfl
      exact ⟨_, _, rfl, vain_of_fruitless hbefore, s, rfl, hs⟩
  | @failed before _ _ hbefore hpart =>
      have hvain := vain_of_fruitless hbefore
      rcases (trace_get hpart).2.2 _ rfl with ⟨e', rfl, rfl | rfl⟩ | ⟨s, e', rfl, rfl, hs⟩
      · exact ⟨before, _, rfl, hvain, .inl ⟨e', _, rfl, rfl⟩⟩
      · refine ⟨before ++ [⟨.base (.base .conn), .ok ()⟩], _, ?_, fun e he => ?_,
          .inl ⟨e', .get (b.keys.result id.toText), rfl, rfl⟩⟩
        · rw [List.append_assoc]
          rfl
        · rcases List.mem_append.mp he with he | he
          · exact hvain e he
          · exact .inl (List.mem_singleton.mp he)
      · exact ⟨before, _, rfl, hvain, .inr ⟨s, e', rfl, hs, rfl⟩⟩
  | @timedOut before _ now hbefore hpart hnow =>
      obtain rfl := (trace_get hpart).2.1 rfl
      exact ⟨before, _, List.append_assoc _ _ _, vain_of_fruitless hbefore, now, rfl, hnow⟩

/-- `wait` ends, and says why.  Whatever the server answers, as long as the clock does not
go back and a sleep takes its time: the loop comes to an end with at most one sleep for
each 100 ms of the timeout, and with the result that its last `GET` found, with its first
failure, or, when the timeout is over, after a last `GET` that found nothing; before that
nothing failed and nothing was found. -/
theorem wait_ends {timeout now : Nat} {tr : List (Event (timed (clientCommands σ)))}
    {out : Option (Outcome KojinError Json)} (htimely : Timely now tr)
    (h : (b.wait decode id timeout).Trace tr out) :
    ∃ outcome start rest, out = some outcome ∧ tr = ⟨.instant, start⟩ :: rest ∧
      EndsRightly b decode id (start + timeout) rest outcome ∧
      rest.countP slept ≤ (timeout + interval - 1) / interval := by
  obtain ⟨outcome, start, rest, hout, htr, hends, hcount⟩ :=
    poll_spec interval_pos (Nat.lt_succ_self _) htimely h
  exact ⟨outcome, start, rest, hout, htr, endsRightly_of_closes hends, hcount⟩

/-- There is no result at first, and one after a sleep. -/
def secondTime : List (Event (timed (clientCommands Nat))) :=
  [⟨.instant, (5 : Nat)⟩, ⟨.base (.base .conn), .ok ()⟩,
    ⟨.base (.get ("kojin:result:" ++ (TaskId.mk 1).toText)), .ok none⟩, ⟨.instant, (6 : Nat)⟩,
    ⟨.sleep interval, ()⟩, ⟨.base (.base .conn), .ok ()⟩,
    ⟨.base (.get ("kojin:result:" ++ (TaskId.mk 1).toText)), .ok (some "null")⟩]

/-- A wait of 150 ms finds it, after one sleep. -/
theorem wait_ends_second : ∃ before s,
    secondTime = ⟨.instant, 5⟩ :: (before ++
      (asked ⟨⟨"kojin"⟩, 60⟩ ⟨1⟩ (some s)).map Prog.timedEvent) ∧
    secondTime.countP slept = 1 := by
  obtain ⟨outcome, start, rest, hout, htr, hends, -⟩ :=
    @wait_ends Nat _ ⟨⟨"kojin"⟩, 60⟩ (fun _ => .ok .null) ⟨1⟩ 150000000 0 secondTime
      (some (.found .null)) ⟨Nat.zero_le 5, by decide, trivial⟩
      (.call (.call (.call (.call (.call (.call (.call (.ret _))))))))
  cases hout
  obtain ⟨before, last, rfl, -, s, rfl, -⟩ := hends
  have hstart : start = 5 := by
    have hfirst := (List.cons.inj htr).1
    cases hfirst
    rfl
  exact ⟨before, s, hstart ▸ htr, rfl⟩

end RedisResultBackend

end Kojin.Redis
