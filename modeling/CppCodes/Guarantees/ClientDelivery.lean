import CppCodes.Library.History
import CppCodes.Source.Net.IoUringClient

/-!
# What the io_uring client delivers

The one request object that reads and sends goes through five stages, and each says
how the octets accepted so far relate to the chunks read so far. After a send the
client reads again without looking at how much of the chunk was accepted, so the
stages follow each other only while every send is accepted in full.
-/

set_option autoImplicit false

namespace CppCodes.Guarantees.ClientDelivery

open Library
open Source.Net.IoUringClient

/-- What has been accepted is always the beginning of what was read before an `exit`,
and the client reads only when everything read so far has been accepted. -/
structure Delivered (trace : List Event) : Prop where
  beginning : Always (fun now => accepted now <+: (beforeExit (chunks now)).flatten) trace
  reads : Each (fun before e => e = .submitRead → accepted before = (chunks before).flatten) trace

/-- No completion is taken of a send of which less than the whole was accepted. -/
def SendsInFull (c : Client) : Action → Prop
  | .peek =>
      match c.ring.completed with
      | [] => True
      | (w, res) :: _ =>
          match c.requests w with
          | none => True
          | some req => req.type = .sendSocket → 0 ≤ res → res = req.length
  | _ => True

instance (c : Client) (a : Action) : Decidable (SendsInFull c a) := by
  cases a with
  | peek =>
    unfold SendsInFull
    dsimp only
    split
    · infer_instance
    · split <;> infer_instance
  | _ => exact isTrue trivial

/-- No chunk read so far says `exit`. -/
def NoExit (cs : List Bytes) : Prop := ∀ chunk ∈ cs, isExit chunk = false

/-- Where the request object that reads and sends stands. -/
inductive Stage (c : Client) (trace : List Event) : Prop where
  | reading (req : IoRequest) (hreq : c.requests .readReq = some req)
      (type : req.type = .readInput) (size : req.buffer.length = bufferSize)
      (ring : c.ring.Waits .readReq (.read bufferSize)) (noExit : NoExit (chunks trace))
      (all : accepted trace = (chunks trace).flatten)
  | nothingRead (req : IoRequest) (res : Int) (hreq : c.requests .readReq = some req)
      (type : req.type = .readInput) (ring : c.ring.Answered .readReq res) (hres : res ≤ 0)
      (noExit : NoExit (chunks trace)) (all : accepted trace = (chunks trace).flatten)
  | gotChunk (req : IoRequest) (res : Int) (cs : List Bytes)
      (hreq : c.requests .readReq = some req) (type : req.type = .readInput)
      (size : req.buffer.length = bufferSize) (ring : c.ring.Answered .readReq res) (hres : 0 < res)
      (fits : res.toNat ≤ bufferSize) (read : chunks trace = cs ++ [req.buffer.take res.toNat]) (noExit : NoExit cs)
      (all : accepted trace = cs.flatten)
  | sending (req : IoRequest) (cs : List Bytes) (hreq : c.requests .readReq = some req)
      (type : req.type = .sendSocket) (size : req.buffer.length = bufferSize)
      (ring : c.ring.Waits .readReq (.send req.length)) (fits : req.length ≤ bufferSize)
      (read : chunks trace = cs ++ [req.buffer.take req.length]) (noExit : NoExit (chunks trace))
      (all : accepted trace = cs.flatten)
  | sendDone (req : IoRequest) (res : Int) (cs : List Bytes)
      (hreq : c.requests .readReq = some req) (type : req.type = .sendSocket)
      (size : req.buffer.length = bufferSize) (ring : c.ring.Answered .readReq res)
      (fits : req.length ≤ bufferSize) (upTo : res ≤ req.length)
      (read : chunks trace = cs ++ [req.buffer.take req.length]) (noExit : NoExit (chunks trace))
      (part : accepted trace = cs.flatten ++ (req.buffer.take req.length).take res.toNat)
  | stopped (hreq : c.requests .readReq = none) (ring : c.ring.Idle .readReq)
      (beginning : accepted trace <+: (beforeExit (chunks trace)).flatten)

/-- The other request polls the socket and does nothing else. -/
inductive Polling (c : Client) : Prop where
  | waiting (req : IoRequest) (hreq : c.requests .pollReq = some req)
      (type : req.type = .pollSocket) (ring : c.ring.Waits .pollReq .poll)
  | answered (req : IoRequest) (res : Int) (hreq : c.requests .pollReq = some req)
      (type : req.type = .pollSocket) (ring : c.ring.Answered .pollReq res)
  | stopped (hreq : c.requests .pollReq = none) (ring : c.ring.Idle .pollReq)

structure Inv (c : Client) (trace : List Event) : Prop where
  stage : Stage c trace
  polling : Polling c

section Observations

variable {trace seen : List Event}

@[simp] theorem accepted_append : accepted (trace ++ seen) = accepted trace ++ accepted seen := by
  simp [accepted]

@[simp] theorem chunks_append : chunks (trace ++ seen) = chunks trace ++ chunks seen := by
  simp [chunks]

@[simp] theorem accepted_accepted {data : Bytes} : accepted [.accepted data] = data := by
  simp [accepted, acceptedOf]

@[simp] theorem chunks_accepted {data : Bytes} : chunks [.accepted data] = [] := rfl

@[simp] theorem accepted_chunk {data : Bytes} : accepted [.chunk data] = [] := rfl

@[simp] theorem chunks_chunk {data : Bytes} : chunks [.chunk data] = [data] := rfl

@[simp] theorem accepted_submitRead : accepted [.submitRead] = [] := rfl

@[simp] theorem chunks_submitRead : chunks [.submitRead] = [] := rfl

theorem NoExit.beforeExit_eq {cs : List Bytes} (h : NoExit cs) : beforeExit cs = cs := by
  refine List.takeWhile_eq_self_iff.mpr ?_
  intro chunk hmem
  simp [h chunk hmem]

theorem beforeExit_append {cs : List Bytes} {chunk : Bytes} (h : NoExit cs)
    (hexit : isExit chunk = true) : beforeExit (cs ++ [chunk]) = cs := by
  have hcs : ∀ c ∈ cs, (!isExit c) = true := fun c hc => by simp [h c hc]
  simp [beforeExit, List.takeWhile_append_of_pos hcs, hexit]

theorem NoExit.append {cs : List Bytes} {chunk : Bytes} (h : NoExit cs)
    (hexit : isExit chunk = false) : NoExit (cs ++ [chunk]) := by
  intro c hc
  rcases List.mem_append.mp hc with hc | hc
  · exact h c hc
  · rw [List.mem_singleton.mp hc]
    exact hexit

end Observations

variable {c d : Client} {trace seen : List Event}

/-- In every stage what was accepted is the beginning of what was read. -/
theorem Stage.beginning (h : Stage c trace) :
    accepted trace <+: (beforeExit (chunks trace)).flatten := by
  cases h with
  | reading req hreq type size ring noExit all =>
    exact ⟨[], by rw [noExit.beforeExit_eq, all, List.append_nil]⟩
  | nothingRead req res hreq type ring hres noExit all =>
    exact ⟨[], by rw [noExit.beforeExit_eq, all, List.append_nil]⟩
  | gotChunk req res cs hreq type size ring hres fits read noExit all =>
    rw [all, read]
    by_cases hexit : isExit (req.buffer.take res.toNat) = true
    · exact ⟨[], by rw [beforeExit_append noExit hexit, List.append_nil]⟩
    · rw [(noExit.append (Bool.eq_false_iff.mpr hexit)).beforeExit_eq, List.flatten_append]
      exact List.prefix_append ..
  | sending req cs hreq type size ring fits read noExit all =>
    rw [noExit.beforeExit_eq, all, read, List.flatten_append]
    exact List.prefix_append ..
  | sendDone req res cs hreq type size ring fits upTo read noExit part =>
    rw [noExit.beforeExit_eq, part, read, List.flatten_append, List.prefix_append_right_inj]
    simpa using List.take_prefix ..
  | stopped hreq ring beginning => exact beginning

/-- The other request does not matter to this one. -/
theorem Stage.congr (h : Stage c trace) (hreq : d.requests .readReq = c.requests .readReq)
    (hring : c.ring.Same d.ring .readReq) : Stage d trace := by
  cases h with
  | reading req h type size ring noExit all =>
    exact .reading req (hreq.trans h) type size (ring.congr hring) noExit all
  | nothingRead req res h type ring hres noExit all =>
    exact .nothingRead req res (hreq.trans h) type (ring.congr hring) hres noExit all
  | gotChunk req res cs h type size ring hres fits read noExit all =>
    exact .gotChunk req res cs (hreq.trans h) type size (ring.congr hring) hres fits read noExit all
  | sending req cs h type size ring fits read noExit all =>
    exact .sending req cs (hreq.trans h) type size (ring.congr hring) fits read noExit all
  | sendDone req res cs h type size ring fits upTo read noExit part =>
    exact .sendDone req res cs (hreq.trans h) type size (ring.congr hring) fits upTo read noExit part
  | stopped h ring beginning => exact .stopped (hreq.trans h) (ring.congr hring) beginning

theorem Polling.congr (h : Polling c) (hreq : d.requests .pollReq = c.requests .pollReq)
    (hring : c.ring.Same d.ring .pollReq) : Polling d := by
  cases h with
  | waiting req h type ring => exact .waiting req (hreq.trans h) type (ring.congr hring)
  | answered req res h type ring => exact .answered req res (hreq.trans h) type (ring.congr hring)
  | stopped h ring => exact .stopped (hreq.trans h) (ring.congr hring)

section Perform

variable {req req' : IoRequest} {outcome : Outcome} {res : Int}

theorem perform_read {size : Nat} (h : perform req (.read size) outcome = some (req', res, seen)) :
    (∃ data : Bytes, data.length ≤ size ∧
      req' = { req with buffer := data ++ req.buffer.drop data.length } ∧ res = data.length ∧
      seen = [.chunk data]) ∨ (req' = req ∧ res < 0 ∧ seen = []) := by
  cases outcome with
  | bytes data =>
    simp only [perform] at h
    split at h
    · rename_i hle
      cases h
      exact Or.inl ⟨data, hle, rfl, rfl, rfl⟩
    · cases h
  | error errno =>
    cases h
    exact Or.inr ⟨rfl, by omega, rfl⟩
  | sent n => cases h
  | ready mask => cases h

theorem perform_send {len : Nat} (h : perform req (.send len) outcome = some (req', res, seen)) :
    req' = req ∧ ((∃ n : Nat, n ≤ len ∧ res = n ∧ seen = [.accepted ((req.buffer.take len).take n)]) ∨
      (res < 0 ∧ seen = [])) := by
  cases outcome with
  | sent n =>
    simp only [perform] at h
    split at h
    · rename_i hle
      cases h
      exact ⟨rfl, Or.inl ⟨n, hle, rfl, rfl⟩⟩
    · cases h
  | error errno =>
    cases h
    exact ⟨rfl, Or.inr ⟨by omega, rfl⟩⟩
  | bytes data => cases h
  | ready mask => cases h

theorem perform_poll (h : perform req .poll outcome = some (req', res, seen)) :
    req' = req ∧ seen = [] := by
  cases outcome with
  | ready mask =>
    cases h
    exact ⟨rfl, rfl⟩
  | error errno =>
    cases h
    exact ⟨rfl, rfl⟩
  | bytes data => cases h
  | sent n => cases h

theorem perform_seen {op : Sqe} (h : perform req op outcome = some (req', res, seen)) :
    seen = [] ∨ ∃ e, seen = [e] ∧ e ≠ .submitRead := by
  cases op with
  | read size =>
    rcases perform_read h with ⟨data, -, -, -, rfl⟩ | ⟨-, -, rfl⟩ <;> simp
  | send len =>
    obtain ⟨-, ⟨n, -, -, rfl⟩ | ⟨-, rfl⟩⟩ := perform_send h <;> simp
  | poll =>
    obtain ⟨-, rfl⟩ := perform_poll h
    simp

theorem perform_reads {op : Sqe} (h : perform req op outcome = some (req', res, seen)) :
    .submitRead ∉ seen := by
  rcases perform_seen h with rfl | ⟨e, rfl, he⟩
  · simp
  · simpa using he.symm

end Perform

/-- The kernel's part moves the reading request on. -/
theorem Stage.complete (h : Stage c trace) {i : Nat} {op : Sqe} {outcome : Outcome}
    {req req' : IoRequest} {res : Int} (hi : c.ring.inFlight[i]? = some (.readReq, op))
    (hreq : c.requests .readReq = some req) (hp : perform req op outcome = some (req', res, seen)) :
    Stage { setRequest c .readReq (some req') with ring := c.ring.complete i .readReq res }
      (trace ++ seen) := by
  have hreq' : (setRequest c .readReq (some req')).requests .readReq = some req' := by
    simp
  cases h with
  | reading q hq type size ring noExit all =>
    obtain ⟨rfl, hring⟩ := ring.complete hi res
    rw [hreq] at hq
    cases hq
    rcases perform_read hp with ⟨data, hlen, rfl, rfl, rfl⟩ | ⟨rfl, hres, rfl⟩
    · have hsize : (data ++ req.buffer.drop data.length).length = bufferSize := by
        rw [List.length_append, List.length_drop, size]
        omega
      cases data with
      | nil =>
        refine .nothingRead _ _ hreq' type hring (Int.le_refl _) ?_ (by simp [all])
        rw [chunks_append, chunks_chunk]
        exact noExit.append (by decide)
      | cons b data =>
        refine .gotChunk _ _ (chunks trace) hreq' type hsize hring (by simp) (by simpa using hlen) ?_
          noExit (by simp [all])
        simp [chunks_append]
    · refine .nothingRead _ _ hreq' type hring (by omega) ?_ (by simpa using all)
      simpa using noExit
  | sending q cs hq type size ring fits read noExit all =>
    obtain ⟨rfl, hring⟩ := ring.complete hi res
    rw [hreq] at hq
    cases hq
    obtain ⟨rfl, ⟨n, hn, rfl, rfl⟩ | ⟨hres, rfl⟩⟩ := perform_send hp
    · refine .sendDone _ _ cs hreq' type size hring fits (by omega) (by simpa using read)
        (by simpa using noExit) ?_
      simp [all]
    · refine .sendDone _ _ cs hreq' type size hring fits (by omega) (by simpa using read)
        (by simpa using noExit) ?_
      rw [List.append_nil, all, Int.toNat_of_nonpos (by omega), List.take_zero, List.append_nil]
  | nothingRead _ _ _ _ ring => exact absurd hi ring.not_inFlight
  | gotChunk _ _ _ _ _ _ ring => exact absurd hi ring.not_inFlight
  | sendDone _ _ _ _ _ _ ring => exact absurd hi ring.not_inFlight
  | stopped _ ring => exact absurd hi ring.not_inFlight

/-- Taking a completion of the reading request moves it on as well, unless the
completion is of a send that was cut short. -/
theorem Stage.handle (h : Stage c trace) {req : IoRequest} {res : Int}
    {rest : List (Req × Int)} (hc : c.ring.completed = (.readReq, res) :: rest)
    (hreq : c.requests .readReq = some req)
    (full : req.type = .sendSocket → 0 ≤ res → res = req.length)
    (hd : handle { c with ring := c.ring.take } .readReq req res = (d, seen)) :
    Stage d (trace ++ seen) := by
  have stopped : ∀ {tr : List Event}, accepted tr <+: (beforeExit (chunks tr)).flatten →
      c.ring.take.Idle .readReq → Stage (stop { c with ring := c.ring.take } .readReq) tr :=
    fun hbegin hidle => .stopped (by simp) hidle hbegin
  have beginning := h.beginning
  cases h with
  | nothingRead q res' hq type ring hres noExit all =>
    obtain ⟨rfl, hidle⟩ := ring.take hc
    rw [hreq] at hq
    cases hq
    rw [Source.Net.IoUringClient.handle, type, if_pos hres] at hd
    cases hd
    exact stopped (by simpa using beginning) hidle
  | gotChunk q res' cs hq type size ring hres fits read noExit all =>
    obtain ⟨rfl, hidle⟩ := ring.take hc
    rw [hreq] at hq
    cases hq
    rw [Source.Net.IoUringClient.handle, type, if_neg (by omega)] at hd
    dsimp only at hd
    by_cases hexit : isExit (req.buffer.take res.toNat) = true
    · rw [if_pos hexit] at hd
      cases hd
      exact stopped (by simpa using beginning) hidle
    · rw [if_neg hexit] at hd
      cases hd
      refine .sending { req with type := .sendSocket, length := res.toNat } cs (by simp) rfl
        size hidle.prepare fits (by simpa using read) ?_ (by simpa using all)
      rw [List.append_nil, read]
      exact noExit.append (Bool.eq_false_iff.mpr hexit)
  | sendDone q res' cs hq type size ring fits upTo read noExit part =>
    obtain ⟨rfl, hidle⟩ := ring.take hc
    rw [hreq] at hq
    cases hq
    rw [Source.Net.IoUringClient.handle, type] at hd
    dsimp only at hd
    by_cases hres : res < 0
    · rw [if_pos hres] at hd
      cases hd
      exact stopped (by simpa using beginning) hidle
    · rw [if_neg hres] at hd
      cases hd
      have hfull := full type (by omega)
      refine .reading { req with type := .readInput } (by simp) rfl size hidle.prepare (by simpa using noExit) ?_
      rw [accepted_append, chunks_append, accepted_submitRead, chunks_submitRead, List.append_nil,
        List.append_nil, part, read, hfull, Int.toNat_natCast, List.take_take, Nat.min_self]
      simp
  | reading _ _ _ _ ring => exact absurd hc ring.not_completed
  | sending _ _ _ _ _ ring => exact absurd hc ring.not_completed
  | stopped _ ring => exact absurd hc ring.not_completed

/-- The polling request is answered, or its completion taken. -/
theorem Polling.complete (h : Polling c) {i : Nat} {op : Sqe} {outcome : Outcome}
    {req req' : IoRequest} {res : Int} (hi : c.ring.inFlight[i]? = some (.pollReq, op))
    (hreq : c.requests .pollReq = some req) (hp : perform req op outcome = some (req', res, seen)) :
    seen = [] ∧
      Polling { setRequest c .pollReq (some req') with ring := c.ring.complete i .pollReq res } := by
  cases h with
  | waiting q hq type ring =>
    obtain ⟨rfl, hring⟩ := ring.complete hi res
    rw [hreq] at hq
    cases hq
    obtain ⟨rfl, rfl⟩ := perform_poll hp
    exact ⟨rfl, .answered req' res (by simp) type hring⟩
  | answered _ _ _ _ ring => exact absurd hi ring.not_inFlight
  | stopped _ ring => exact absurd hi ring.not_inFlight

theorem Polling.handle (h : Polling c) {req : IoRequest} {res : Int}
    {rest : List (Req × Int)} (hc : c.ring.completed = (.pollReq, res) :: rest)
    (hreq : c.requests .pollReq = some req) :
    handle { c with ring := c.ring.take } .pollReq req res =
        (stop { c with ring := c.ring.take } .pollReq, []) ∧
      Polling (stop { c with ring := c.ring.take } .pollReq) ∧ req.type = .pollSocket := by
  cases h with
  | answered q res' hq type ring =>
    obtain ⟨rfl, hidle⟩ := ring.take hc
    rw [hreq] at hq
    cases hq
    refine ⟨?_, .stopped (by simp) hidle, type⟩
    rw [Source.Net.IoUringClient.handle, type]
  | waiting _ _ _ ring => exact absurd hc ring.not_completed
  | stopped _ ring => exact absurd hc ring.not_completed

/-- Handling a completion of one request leaves the other one alone. -/
theorem handle_other {w u : Req} {req : IoRequest} {res : Int} {rest : List (Req × Int)}
    (hc : c.ring.completed = (w, res) :: rest) (hu : u ≠ w)
    (hd : handle { c with ring := c.ring.take } w req res = (d, seen)) :
    d.requests u = c.requests u ∧ c.ring.Same d.ring u := by
  have htake : c.ring.Same c.ring.take u := RequestRing.take_same hc hu
  have hprepare : ∀ op, c.ring.Same (c.ring.take.prepare w op) u := fun op =>
    htake.trans (RequestRing.prepare_same hu)
  unfold Source.Net.IoUringClient.handle at hd
  split at hd
  · split at hd
    · cases hd
      exact ⟨by simp [hu], htake⟩
    · dsimp only at hd
      split at hd
      · cases hd
        exact ⟨by simp [hu], htake⟩
      · cases hd
        exact ⟨by simp [hu], hprepare _⟩
  · split at hd
    · cases hd
      exact ⟨by simp [hu], htake⟩
    · cases hd
      exact ⟨by simp [hu], hprepare _⟩
  · cases hd
    exact ⟨by simp [hu], htake⟩

/-- A request that the kernel works on has not been deleted. -/
theorem Inv.request_of_inFlight (inv : Inv c trace) {i : Nat} {w : Req} {op : Sqe}
    (hi : c.ring.inFlight[i]? = some (w, op)) : ∃ req, c.requests w = some req := by
  cases w with
  | readReq =>
    cases inv.stage with
    | stopped _ ring => exact absurd hi ring.not_inFlight
    | reading req hreq | nothingRead req _ hreq | gotChunk req _ _ hreq | sending req _ hreq
    | sendDone req _ _ hreq => exact ⟨req, hreq⟩
  | pollReq =>
    cases inv.polling with
    | stopped _ ring => exact absurd hi ring.not_inFlight
    | waiting req hreq | answered req _ hreq => exact ⟨req, hreq⟩

theorem Inv.request_of_completed (inv : Inv c trace) {w : Req} {res : Int}
    {rest : List (Req × Int)} (hc : c.ring.completed = (w, res) :: rest) :
    ∃ req, c.requests w = some req := by
  cases w with
  | readReq =>
    cases inv.stage with
    | stopped _ ring => exact absurd hc ring.not_completed
    | reading req hreq | nothingRead req _ hreq | gotChunk req _ _ hreq | sending req _ hreq
    | sendDone req _ _ hreq => exact ⟨req, hreq⟩
  | pollReq =>
    cases inv.polling with
    | stopped _ ring => exact absurd hc ring.not_completed
    | waiting req hreq | answered req _ hreq => exact ⟨req, hreq⟩

theorem Inv.completeStep (inv : Inv c trace) {i : Nat} {outcome : Outcome}
    (hstep : step c (.complete i outcome) = some (d, seen)) :
    Inv d (trace ++ seen) ∧ .submitRead ∉ seen := by
  simp only [step] at hstep
  split at hstep
  · cases hstep
  · rename_i w op hi
    obtain ⟨req, hreq⟩ := inv.request_of_inFlight hi
    rw [hreq] at hstep
    dsimp only at hstep
    split at hstep
    · cases hstep
    · rename_i req' res seen' hp
      cases hstep
      refine ⟨?_, perform_reads hp⟩
      cases w with
      | readReq =>
        refine ⟨inv.stage.complete hi hreq hp, inv.polling.congr (by simp) ?_⟩
        exact RequestRing.complete_same hi (by decide)
      | pollReq =>
        obtain ⟨rfl, hpolling⟩ := inv.polling.complete hi hreq hp
        rw [List.append_nil]
        refine ⟨inv.stage.congr (by simp) ?_, hpolling⟩
        exact RequestRing.complete_same hi (by decide)

/-- Taking a completion emits nothing or is the client's decision to read again. -/
inductive Taken (c : Client) (trace : List Event) (d : Client) : List Event → Prop where
  | quiet (inv : Inv d trace) (full : SendsInFull c .peek) : Taken c trace d []
  | again (req : IoRequest) (res : Int) (rest : List (Req × Int)) (cs : List Bytes)
      (hc : c.ring.completed = (.readReq, res) :: rest) (hreq : c.requests .readReq = some req)
      (type : req.type = .sendSocket) (hres : 0 ≤ res) (upTo : res ≤ req.length)
      (fits : req.length ≤ req.buffer.length)
      (read : chunks trace = cs ++ [req.buffer.take req.length])
      (part : accepted trace = cs.flatten ++ (req.buffer.take req.length).take res.toNat)
      (inv : res = req.length → Inv d (trace ++ [.submitRead])) :
      Taken c trace d [.submitRead]

theorem sendsInFull_peek {w : Req} {req : IoRequest} {res : Int} {rest : List (Req × Int)}
    (hc : c.ring.completed = (w, res) :: rest) (hreq : c.requests w = some req) :
    SendsInFull c .peek ↔ (req.type = .sendSocket → 0 ≤ res → res = req.length) := by
  simp [SendsInFull, hc, hreq]

theorem handle_quiet {w : Req} {req : IoRequest} {res : Int}
    (hsend : ¬ (req.type = .sendSocket ∧ 0 ≤ res)) (hd : handle c w req res = (d, seen)) :
    seen = [] := by
  unfold Source.Net.IoUringClient.handle at hd
  split at hd
  · split at hd
    · cases hd
      rfl
    · dsimp only at hd
      split at hd <;> cases hd <;> rfl
  · rename_i type
    have hres : res < 0 := by
      by_contra h
      exact hsend ⟨type, by omega⟩
    rw [if_pos hres] at hd
    cases hd
    rfl
  · cases hd
    rfl

theorem handle_again {w : Req} {req : IoRequest} {res : Int} (type : req.type = .sendSocket)
    (hres : 0 ≤ res) (hd : handle c w req res = (d, seen)) : seen = [.submitRead] := by
  rw [Source.Net.IoUringClient.handle, type] at hd
  dsimp only at hd
  rw [if_neg (by omega)] at hd
  cases hd
  rfl

theorem Inv.peekStep (inv : Inv c trace) (hstep : step c .peek = some (d, seen)) :
    Taken c trace d seen := by
  simp only [step] at hstep
  split at hstep
  · rename_i w res rest _ hc
    obtain ⟨req, hreq⟩ := inv.request_of_completed hc
    rw [hreq] at hstep
    have hd := Option.some.inj hstep
    cases w with
    | pollReq =>
      obtain ⟨hhandle, hpolling, htype⟩ := inv.polling.handle hc hreq
      obtain ⟨hstage, hsame⟩ := handle_other (u := .readReq) hc (by decide) hd
      rw [hhandle] at hd
      cases hd
      refine .quiet ⟨inv.stage.congr hstage hsame, hpolling⟩ ((sendsInFull_peek hc hreq).mpr ?_)
      rw [htype]
      intro hsend
      cases hsend
    | readReq =>
      obtain ⟨hpolling, hsame⟩ := handle_other (u := .pollReq) hc (by decide) hd
      have hinv : (req.type = .sendSocket → 0 ≤ res → res = req.length) → Inv d (trace ++ seen) :=
        fun full => ⟨inv.stage.handle hc hreq full hd, inv.polling.congr hpolling hsame⟩
      by_cases hsend : req.type = .sendSocket ∧ 0 ≤ res
      · obtain ⟨htype, hres⟩ := hsend
        obtain rfl := handle_again htype hres hd
        cases inv.stage with
        | sendDone q res' cs hq type size ring fits upTo read noExit part =>
          obtain ⟨rfl, -⟩ := ring.take hc
          rw [hreq] at hq
          cases hq
          exact .again req res rest cs hc hreq htype hres upTo (by omega) read part
            fun hfull => hinv fun _ _ => hfull
        | reading _ _ _ _ ring => exact absurd hc ring.not_completed
        | sending _ _ _ _ _ ring => exact absurd hc ring.not_completed
        | stopped _ ring => exact absurd hc ring.not_completed
        | nothingRead q _ hq type | gotChunk q _ _ hq type =>
          rw [hreq] at hq
          cases hq
          rw [type] at htype
          cases htype
      · have hfull : req.type = .sendSocket → 0 ≤ res → res = req.length := fun htype hres =>
          absurd ⟨htype, hres⟩ hsend
        have hinv := hinv hfull
        obtain rfl := handle_quiet hsend hd
        rw [List.append_nil] at hinv
        exact .quiet hinv ((sendsInFull_peek hc hreq).mpr hfull)
  · cases hstep

/-- Everything read so far has been accepted when the client reads again, if and only
if the send it takes was accepted in full. -/
theorem Taken.accepted_iff (h : Taken c trace d [.submitRead]) :
    accepted trace = (chunks trace).flatten ↔ SendsInFull c .peek := by
  cases h with
  | again req res rest cs hc hreq type hres upTo fits read part inv =>
    rw [sendsInFull_peek hc hreq, part, read, List.flatten_append, List.append_cancel_left_eq,
      List.flatten_singleton]
    constructor
    · intro htake _ _
      have hlen := congrArg List.length htake
      simp only [List.length_take] at hlen
      omega
    · intro hfull
      rw [hfull type hres, Int.toNat_natCast, List.take_take, Nat.min_self]

theorem handle_seen {w : Req} {req : IoRequest} {res : Int} (hd : handle c w req res = (d, seen)) :
    seen = [] ∨ seen = [.submitRead] := by
  by_cases hsend : req.type = .sendSocket ∧ 0 ≤ res
  · exact Or.inr (handle_again hsend.1 hsend.2 hd)
  · exact Or.inl (handle_quiet hsend hd)

/-- A step emits at most one event. -/
theorem step_seen {a : Action} (hstep : step c a = some (d, seen)) :
    seen = [] ∨ ∃ e, seen = [e] := by
  cases a with
  | submitAndWait =>
    simp only [step] at hstep
    split at hstep <;> cases hstep
    exact Or.inl rfl
  | complete i outcome =>
    simp only [step] at hstep
    split at hstep
    · cases hstep
    · split at hstep
      · cases hstep
        exact Or.inr ⟨_, rfl⟩
      · split at hstep
        · cases hstep
        · rename_i hp
          cases hstep
          rcases perform_seen hp with hnil | ⟨e, he, -⟩
          · exact Or.inl hnil
          · exact Or.inr ⟨e, he⟩
  | peek =>
    simp only [step] at hstep
    split at hstep
    · split at hstep
      · cases hstep
        exact Or.inr ⟨_, rfl⟩
      · exact (handle_seen (Option.some.inj hstep)).imp_right fun h => ⟨_, h⟩
    · cases hstep
  | peekNone =>
    simp only [step] at hstep
    split at hstep <;> cases hstep
    exact Or.inl rfl

/-- A step keeps the invariant unless it takes a send that was cut short. -/
theorem Inv.step {a : Action} (inv : Inv c trace) (hstep : step c a = some (d, seen)) :
    (SendsInFull c a → Inv d (trace ++ seen)) ∧
      (.submitRead ∈ seen → (accepted trace = (chunks trace).flatten ↔ SendsInFull c a)) ∧
      (SendsInFull c a ∨ .submitRead ∈ seen) := by
  cases a with
  | submitAndWait =>
    simp only [Source.Net.IoUringClient.step] at hstep
    split at hstep
    · cases hstep
      rw [List.append_nil]
      exact ⟨fun _ => ⟨inv.stage.congr rfl RequestRing.submit_same,
        inv.polling.congr rfl RequestRing.submit_same⟩, nofun, Or.inl trivial⟩
    · cases hstep
  | complete i outcome =>
    obtain ⟨hinv, hmem⟩ := inv.completeStep hstep
    exact ⟨fun _ => hinv, fun h => absurd h hmem, Or.inl trivial⟩
  | peek =>
    have htaken := inv.peekStep hstep
    have hiff := fun h : seen = [.submitRead] => Taken.accepted_iff (h ▸ htaken)
    cases htaken with
    | quiet hinv hfull =>
      rw [List.append_nil]
      exact ⟨fun _ => hinv, nofun, Or.inl hfull⟩
    | again req res rest cs hc hreq type hres upTo fits read part hinv =>
      refine ⟨?_, fun _ => hiff rfl, Or.inr List.mem_cons_self⟩
      intro hfull
      exact hinv ((sendsInFull_peek hc hreq).mp hfull type hres)
  | peekNone =>
    simp only [Source.Net.IoUringClient.step] at hstep
    split at hstep
    · cases hstep
      rw [List.append_nil]
      exact ⟨fun _ => ⟨inv.stage.congr rfl ⟨rfl, rfl⟩,
        inv.polling.congr rfl ⟨rfl, rfl⟩⟩, nofun, Or.inl trivial⟩
    · cases hstep

theorem start_inv : Inv start [] where
  stage := .reading .fresh rfl rfl (List.length_replicate ..) ⟨rfl, rfl⟩ nofun rfl
  polling := .waiting { IoRequest.fresh with type := .pollSocket } rfl rfl ⟨rfl, rfl⟩

theorem run_inv {actions : List Action} (h : machine.Run start actions c trace)
    (full : machine.StepsMeet SendsInFull start actions) : Inv c trace :=
  h.invariant_of_steps start_inv (fun inv hfull hstep => (inv.step hstep).1 hfull) full

theorem delivered_snoc_iff {e : Event} : Delivered (trace ++ [e]) ↔
    Delivered trace ∧
      accepted (trace ++ [e]) <+: (beforeExit (chunks (trace ++ [e]))).flatten ∧
      (e = .submitRead → accepted trace = (chunks trace).flatten) := by
  constructor
  · intro hboth
    obtain ⟨hbeginning, hreads⟩ := hboth
    obtain ⟨hbefore, hnow⟩ := always_snoc_iff.mp hbeginning
    obtain ⟨hearlier, hlast⟩ := each_snoc_iff.mp hreads
    exact ⟨⟨hbefore, hearlier⟩, hnow, hlast⟩
  · intro hparts
    obtain ⟨⟨hbefore, hearlier⟩, hnow, hlast⟩ := hparts
    exact ⟨always_snoc_iff.mpr ⟨hbefore, hnow⟩, each_snoc_iff.mpr ⟨hearlier, hlast⟩⟩

/-- **Delivery.** In every run of the client, with the completions in any order, the
octets accepted are always the beginning of the chunks read before an `exit` and
nothing more is read before all of them are accepted, exactly if every send whose
completion is taken was accepted in full. -/
theorem client_delivers_iff {actions : List Action} (h : machine.Run start actions c trace) :
    Delivered trace ↔ machine.StepsMeet SendsInFull start actions := by
  refine h.induction
    (P := fun actions _ trace => Delivered trace ↔ machine.StepsMeet SendsInFull start actions)
    ?_ ?_
  · exact iff_of_true ⟨always_nil_iff.mpr List.prefix_rfl, each_nil⟩ trivial
  · intro actions c trace a d seen hrun ih hstep
    rw [Machine.stepsMeet_snoc_iff hrun, ← ih]
    -- the invariant is there as long as the condition has been met
    have hinv := fun hdelivered => (run_inv hrun (ih.mp hdelivered)).step hstep
    rcases step_seen hstep with rfl | ⟨e, rfl⟩
    · rw [List.append_nil]
      refine ⟨fun hdelivered => ⟨hdelivered, ?_⟩, fun h => h.1⟩
      exact (hinv hdelivered).2.2.resolve_right List.not_mem_nil
    · rw [delivered_snoc_iff]
      constructor
      · intro hparts
        obtain ⟨hdelivered, -, hread⟩ := hparts
        obtain ⟨-, hiff, hfull | hmem⟩ := hinv hdelivered
        · exact ⟨hdelivered, hfull⟩
        · exact ⟨hdelivered, (hiff hmem).mp (hread (List.mem_singleton.mp hmem).symm)⟩
      · intro hboth
        obtain ⟨hdelivered, hfull⟩ := hboth
        obtain ⟨hnext, hiff, -⟩ := hinv hdelivered
        refine ⟨hdelivered, (hnext hfull).stage.beginning, ?_⟩
        intro hsame
        obtain rfl := hsame
        exact (hiff List.mem_cons_self).mpr hfull

/-- The chunk `hi` is read and `n` octets of it are accepted. -/
def sendHi (n : Nat) : List Action :=
  [.submitAndWait, .complete 0 (.bytes [104, 105]), .peek, .peekNone, .submitAndWait,
    .complete 1 (.sent n), .peek]

theorem client_delivers_iff_whole :
    ∃ c, machine.Run start (sendHi 2) c
        [.chunk [104, 105], .accepted [104, 105], .submitRead] ∧
      Delivered [.chunk [104, 105], .accepted [104, 105], .submitRead] := by
  obtain ⟨c, hrun⟩ : ∃ c, machine.Run start (sendHi 2) c
      [.chunk [104, 105], .accepted [104, 105], .submitRead] :=
    Machine.run_of_trace (by decide +kernel)
  exact ⟨c, hrun, (client_delivers_iff hrun).mpr (by decide +kernel)⟩

/-- One octet of two is accepted, and the client reads the next chunk into its buffer. -/
theorem short_send_drops :
    ∃ c, machine.Run start (sendHi 1) c [.chunk [104, 105], .accepted [104], .submitRead] ∧
      ¬ Delivered [.chunk [104, 105], .accepted [104], .submitRead] := by
  obtain ⟨c, hrun⟩ : ∃ c, machine.Run start (sendHi 1) c
      [.chunk [104, 105], .accepted [104], .submitRead] :=
    Machine.run_of_trace (by decide +kernel)
  refine ⟨c, hrun, ?_⟩
  intro h
  exact absurd (h.reads [.chunk [104, 105], .accepted [104]] _ [] rfl rfl) (by decide)

end CppCodes.Guarantees.ClientDelivery
