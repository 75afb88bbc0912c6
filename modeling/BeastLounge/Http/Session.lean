import BeastLounge.Theory.Runs
import BeastLounge.Http.Request

/-!
# The HTTP session

`http_session_base` is a stackless coroutine: `operator()` goes on after the `yield` it returned at,
and each completion of the operation it started calls it again. Its body is not a loop, so it reads
one request. When the response to it has been written and the connection may be kept, the body ends
there, where the comments announce a next request: no read is started (`keep_alive_iff`).
-/

namespace BeastLounge.Http

open Theory

inductive ErrorCode
  /-- `http::error::end_of_stream` -/
  | endOfStream
  | other (message : String)
deriving DecidableEq

/-- `http::request_parser`, with the message it has parsed. -/
structure Parser where
  bodyLimit : Nat
  headerLimit : Nat
  message : Request := {}
deriving DecidableEq

/-- Where the coroutine goes on. -/
inductive Resume
  | start
  | read
  | written
  | complete
deriving DecidableEq

/-- An asynchronous operation. -/
inductive Operation
  | read
  | write (res : Response)
deriving DecidableEq

/-- What a session calls when it is done with the stream. -/
inductive Call
  | doClose
  | fail (ec : ErrorCode) (what : String)
  | runWsSession (req : Request)
deriving DecidableEq

structure HttpSession where
  resume : Resume := .start
  /-- `pr_` -/
  parser : Option Parser := none
  /-- The number of parsers that `pr_.emplace` has made. -/
  parsers : Nat := 0
  /-- The expiration of the stream, in seconds. -/
  expires : Option Nat := none
  /-- The operation that is outstanding. -/
  operation : Option Operation := none
  /-- The responses handed to `async_write`. -/
  sent : List Response := []
  calls : List Call := []
deriving DecidableEq

inductive Label
  /-- `run` posts the first call. -/
  | run
  | request (req : Request)
  | readFailed (ec : ErrorCode)
  | wrote
  | writeFailed (ec : ErrorCode)
deriving DecidableEq

namespace HttpSession

/-- `http::async_write`, whose handler passes on `need_eof()` of the response. -/
def send (s : HttpSession) (res : Response) : HttpSession :=
  { s with operation := some (.write res), sent := s.sent ++ [res] }

section step
variable (env : Env)
  /- `files n` is what opening a path gives when the request number `n` is answered. -/
  (files : Nat → Files)

/-- `operator()` -/
def operator (s : HttpSession) (ec : Option ErrorCode) (needEof : Bool) : HttpSession :=
  match s.resume with
  | .start =>
    { s with
      expires := some 30
      parser := some { bodyLimit := 64 * 1024, headerLimit := 2048 }
      parsers := s.parsers + 1
      operation := some .read
      resume := .read }
  | .read =>
    match ec with
    | some .endOfStream => { s with calls := s.calls ++ [.doClose], resume := .complete }
    | some ec =>
      { s with calls := s.calls ++ [.fail ec "http::async_read"], resume := .complete }
    | none =>
      match s.parser with
      | none => { s with resume := .complete }
      | some parser =>
        let req := parser.message
        if req.isUpgrade then
          { s with expires := none, calls := s.calls ++ [.runWsSession req], resume := .complete }
        else { s with resume := .written }.send (handleRequest env req (files s.sent.length))
  | .written =>
    match ec with
    | some ec => { s with calls := s.calls ++ [.fail ec "http::async_write"], resume := .complete }
    | none =>
      if needEof then { s with calls := s.calls ++ [.doClose], resume := .complete }
      -- the body ends: nothing leads back to the read
      else { s with resume := .complete }
  | .complete => s

/-- A completion ends the operation it is of. -/
def step (s : HttpSession) : Label → Option HttpSession
  | .run => if s.resume = .start then some (s.operator env files none false) else none
  | .request req =>
    match s.operation with
    | some .read =>
      let parser := s.parser.map fun p => { p with message := req }
      some ({ s with parser, operation := none }.operator env files none false)
    | _ => none
  | .readFailed ec =>
    match s.operation with
    | some .read => some ({ s with operation := none }.operator env files (some ec) false)
    | _ => none
  | .wrote =>
    match s.operation with
    | some (.write res) => some ({ s with operation := none }.operator env files none (env.needEof res))
    | _ => none
  | .writeFailed ec =>
    match s.operation with
    | some (.write res) =>
      some ({ s with operation := none }.operator env files (some ec) (env.needEof res))
    | _ => none

end step

/-- A session before `run`. -/
def Fresh (s : HttpSession) : Prop := s = {}

/-! ### What a step does -/

/-- The place where the coroutine goes on is that of the operation it waits for. -/
def Waits (s : HttpSession) : Prop :=
  match s.resume with
  | .start => s.operation = none
  | .read => s.operation = some .read ∧ s.parser.isSome
  | .written => ∃ res, s.operation = some (.write res)
  | .complete => s.operation = none

/-- The response that is being written has `need_eof()` false, so the connection may be kept. -/
def mayKeep (env : Env) (s : HttpSession) : Bool :=
  match s.operation with
  | some (.write res) => !env.needEof res
  | _ => false

/-- The steps of a session. -/
inductive Steps (env : Env) (files : Nat → Files) (s t : HttpSession) : Label → Prop
  | run (hread : t.operation = some .read) (hsent : t.sent = s.sent) : Steps env files s t .run
  | request {req : Request} (hupgrade : req.isUpgrade = false)
      (hsent : t.sent = s.sent ++ [handleRequest env req (files s.sent.length)])
      (hwrite : t.operation = some (.write (handleRequest env req (files s.sent.length)))) :
      Steps env files s t (.request req)
  | upgrade {req : Request} (hupgrade : req.isUpgrade = true) (hsent : t.sent = s.sent)
      (hstop : t.operation = none) : Steps env files s t (.request req)
  | readFailed {ec : ErrorCode} (hsent : t.sent = s.sent) (hstop : t.operation = none) :
      Steps env files s t (.readFailed ec)
  | wrote (hsent : t.sent = s.sent) (hstop : t.operation = none) : Steps env files s t .wrote
  | writeFailed {ec : ErrorCode} (hsent : t.sent = s.sent) (hstop : t.operation = none) :
      Steps env files s t (.writeFailed ec)

section steps
variable {env : Env} {files : Nat → Files} {s t : HttpSession} {l : Label} {tr : List (HttpSession × Label)}

theorem steps_of_step (hs : s.Waits) (h : step env files s l = some t) :
    Steps env files s t l ∧ t.Waits := by
  obtain ⟨resume, parser, parsers, expires, operation, sent, calls⟩ := s
  cases l with
  | run =>
    simp only [step, Option.ite_none_right_eq_some, Option.some.injEq] at h
    obtain ⟨rfl, rfl⟩ := h
    exact ⟨.run rfl rfl, rfl, rfl⟩
  | request req =>
    rcases operation with _ | _ | res
    · cases h
    · obtain rfl := Option.some.inj h
      cases resume with
      | read =>
        obtain ⟨p, rfl⟩ := Option.isSome_iff_exists.mp hs.2
        cases hupgrade : req.isUpgrade with
        | true =>
          simp only [operator, Option.map_some, hupgrade, if_true]
          exact ⟨.upgrade hupgrade rfl rfl, rfl⟩
        | false =>
          simp only [operator, Option.map_some, hupgrade, Bool.false_eq_true, if_false]
          exact ⟨.request hupgrade rfl rfl, _, rfl⟩
      | written =>
        obtain ⟨res, hres⟩ := hs
        cases hres
      | _ => cases hs
    · cases h
  | readFailed ec =>
    rcases operation with _ | _ | res
    · cases h
    · obtain rfl := Option.some.inj h
      cases resume with
      | read => cases ec <;> exact ⟨.readFailed rfl rfl, rfl⟩
      | written =>
        obtain ⟨res, hres⟩ := hs
        cases hres
      | _ => cases hs
    · cases h
  | wrote =>
    rcases operation with _ | _ | res
    · cases h
    · cases h
    · obtain rfl := Option.some.inj h
      cases resume with
      | written =>
        cases heof : env.needEof res
        · simp only [operator, Bool.false_eq_true, if_false]
          exact ⟨.wrote rfl rfl, rfl⟩
        · simp only [operator, if_true]
          exact ⟨.wrote rfl rfl, rfl⟩
      | read => cases hs.1
      | _ => cases hs
  | writeFailed ec =>
    rcases operation with _ | _ | res
    · cases h
    · cases h
    · obtain rfl := Option.some.inj h
      cases resume with
      | written => exact ⟨.writeFailed rfl rfl, rfl⟩
      | read => cases hs.1
      | _ => cases hs

theorem waits_run (hrun : Run (step env files) Fresh tr s) : s.Waits := by
  have hreach : Reachable (step env files) Fresh s := ⟨tr, hrun⟩
  apply hreach.invariant
  · rintro s rfl
    exact rfl
  · exact fun s l t hs h => (steps_of_step hs h).2

end steps

/-! ### Keep-alive -/

/-- The requests that were read and are no upgrades, in order. -/
def requests (tr : List (HttpSession × Label)) : List Request :=
  tr.filterMap fun x =>
    match x.2 with
    | .request req => if req.isUpgrade then none else some req
    | _ => none

/-- The next read is under way, with a parser made for it. -/
def ReadsAnew (env : Env) (files : Nat → Files) (s : HttpSession) (l : Label) : Prop :=
  l = .wrote → s.mayKeep env = true →
    ∀ t, s.step env files l = some t → t.operation = some .read ∧ t.parsers = s.parsers + 1

/-- What ends a session: an error or the end of the stream, an upgrade, and a response with
`need_eof()` true. -/
def ends (env : Env) (s : HttpSession) : Label → Bool
  | .run => false
  | .request req => req.isUpgrade
  | .readFailed _ => true
  | .wrote => !s.mayKeep env
  | .writeFailed _ => true

/-- Nothing else stops it. -/
def StopsOnly (env : Env) (files : Nat → Files) (s : HttpSession) (l : Label) : Prop :=
  ∀ t, s.step env files l = some t → t.operation = none → s.ends env l = true

/-- A run honours keep-alive. -/
structure KeepsAlive (env : Env) (files : Nat → Files) (tr : List (HttpSession × Label))
    (s : HttpSession) : Prop where
  answered : s.sent = (requests tr).mapIdx fun n req => handleRequest env req (files n)
  reads : AllSteps (ReadsAnew env files) tr
  stops : AllSteps (StopsOnly env files) tr

/-- The step does not complete, with success, the write of a response with `need_eof()` false. -/
def EndsWrite (env : Env) (s : HttpSession) (l : Label) : Prop := l = .wrote → s.mayKeep env = false

instance (env : Env) (s : HttpSession) (l : Label) : Decidable (EndsWrite env s l) :=
  inferInstanceAs (Decidable (_ → _))

section runs
variable {env : Env} {files : Nat → Files} {s t : HttpSession} {l : Label} {tr : List (HttpSession × Label)}

theorem requests_snoc (tr : List (HttpSession × Label)) (s : HttpSession) (l : Label) :
    requests (tr ++ [(s, l)]) = requests tr ++ requests [(s, l)] := List.filterMap_append ..

/-- Each request that is read is answered once, in order. -/
theorem answered_run (hrun : Run (step env files) Fresh tr s) :
    s.sent = (requests tr).mapIdx fun n req => handleRequest env req (files n) := by
  induction hrun with
  | nil h =>
    subst h
    rfl
  | @snoc tr s t l hrun hstep ih =>
    have hlen : s.sent.length = (requests tr).length := by rw [ih, List.length_mapIdx]
    rw [requests_snoc]
    cases (steps_of_step (waits_run hrun) hstep).1 with
    | request hupgrade hsent =>
      rw [hsent, hlen, ih]
      simp [requests, hupgrade, List.mapIdx_append]
    | upgrade hupgrade hsent =>
      rw [hsent, ih]
      simp [requests, hupgrade]
    | run hread hsent => simp [requests, hsent, ih]
    | readFailed hsent => simp [requests, hsent, ih]
    | wrote hsent => simp [requests, hsent, ih]
    | writeFailed hsent => simp [requests, hsent, ih]

theorem stops_of_step (hs : s.Waits) (hends : EndsWrite env s l) : StopsOnly env files s l := by
  intro t hstep hstop
  cases (steps_of_step hs hstep).1 with
  | run hread =>
    rw [hread] at hstop
    cases hstop
  | request hupgrade hsent hwrite =>
    rw [hwrite] at hstop
    cases hstop
  | upgrade hupgrade => exact hupgrade
  | readFailed => rfl
  | wrote => rw [ends, hends rfl]; rfl
  | writeFailed => rfl

/-- After the write of a response that allows for another request, no read is started. -/
theorem not_readsAnew (hs : s.Waits) (hstep : s.step env files l = some t) (hl : ¬EndsWrite env s l) :
    ¬ReadsAnew env files s l := by
  obtain ⟨rfl, hkeep⟩ : l = .wrote ∧ s.mayKeep env = true := by simpa [EndsWrite] using hl
  intro hreads
  obtain ⟨hread, -⟩ := hreads rfl hkeep t hstep
  cases (steps_of_step hs hstep).1 with
  | wrote hsent hstop =>
    rw [hread] at hstop
    cases hstop

end runs

/-- A run honours keep-alive exactly when no write of a response with `need_eof()` false completes
with success. -/
theorem keep_alive_iff {env : Env} {files : Nat → Files} {tr : List (HttpSession × Label)}
    {s : HttpSession} (hrun : Run (step env files) Fresh tr s) :
    KeepsAlive env files tr s ↔ AllSteps (EndsWrite env) tr := by
  have hwaits : AllStates Waits tr s :=
    hrun.reachable.mono fun s h => waits_run h.choose_spec
  constructor
  · intro h
    have hall := hrun.enabled
    intro x hx
    obtain ⟨t, ht⟩ := hall x hx
    by_contra hl
    exact not_readsAnew (hwaits.1 x hx) ht hl (h.reads x hx)
  · intro h
    refine ⟨answered_run hrun, fun x hx hl hkeep => ?_, fun x hx => ?_⟩
    · rw [h x hx hl] at hkeep
      cases hkeep
    · exact stops_of_step (hwaits.1 x hx) (h x hx)

/-! ### Runs on fixed inputs -/

def noFiles : Nat → Files := fun _ _ => .error .noSuchFileOrDirectory

def closing : Request := { method := .get, target := "/", keepAlive := false }

def keeping : Request := { method := .get, target := "/" }

/-- A connection that is not to be kept is closed after the response. Of one that is to be kept the
session has not gone wrong until the response is written; then it stops without a call. -/
theorem keep_alive_closing :
    (∃ tr s, Run (step emptyRoot noFiles) Fresh tr s ∧ requests tr = [closing] ∧
      s.calls = [.doClose] ∧ KeepsAlive emptyRoot noFiles tr s) ∧
    (∃ tr s, Run (step emptyRoot noFiles) Fresh tr s ∧ requests tr = [keeping] ∧
      s.calls = [.fail (.other "reset") "http::async_write"] ∧ KeepsAlive emptyRoot noFiles tr s) ∧
    ∃ tr s, Run (step emptyRoot noFiles) Fresh tr s ∧ requests tr = [keeping] ∧
      s.calls = [] ∧ s.operation = none ∧ ¬KeepsAlive emptyRoot noFiles tr s := by
  have hfresh : Run (step emptyRoot noFiles) Fresh [] {} := .nil rfl
  have hclosing := Run.execute [.run, .request closing, .wrote] hfresh rfl
  have hfailing := Run.execute [.run, .request keeping, .writeFailed (.other "reset")] hfresh rfl
  have hkeeping := Run.execute [.run, .request keeping, .wrote] hfresh rfl
  refine ⟨⟨_, _, hclosing, by decide +kernel, by decide +kernel, ?_⟩,
    ⟨_, _, hfailing, by decide +kernel, by decide +kernel, ?_⟩,
    ⟨_, _, hkeeping, by decide +kernel, by decide +kernel, by decide +kernel, ?_⟩⟩
  · exact (keep_alive_iff hclosing).mpr (by decide +kernel)
  · exact (keep_alive_iff hfailing).mpr (by decide +kernel)
  · exact fun hkeeps => absurd ((keep_alive_iff hkeeping).mp hkeeps) (by decide +kernel)

/-- The first response is written and nothing is read after it. -/
theorem second_request_not_read : ¬∀ (env : Env) (files : Nat → Files)
    (tr : List (HttpSession × Label)) (s : HttpSession), env.Documented →
      Run (step env files) Fresh tr s →
      (∀ req ∈ requests tr, ∀ n, env.needEof (handleRequest env req (files n)) = false) →
      KeepsAlive env files tr s := by
  intro h
  have hfresh : Run (step emptyRoot noFiles) Fresh [] {} := .nil rfl
  have hrun := Run.execute [.run, .request keeping, .wrote] hfresh rfl
  have hkeeps := h emptyRoot noFiles _ _ documented_emptyRoot hrun fun req hreq n => by
    rw [needEof_handleRequest req documented_emptyRoot]
    obtain ⟨-, rfl⟩ : keeping.isUpgrade = false ∧ keeping = req := by simpa [requests] using hreq
    rfl
  obtain ⟨hread, -⟩ := (allSteps_snoc.mp hkeeps.reads).2 rfl (by decide +kernel) _ rfl
  exact absurd hread (by decide +kernel)

end HttpSession

end BeastLounge.Http
