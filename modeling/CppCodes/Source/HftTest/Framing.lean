import CppCodes.Source.HftTest.Protocol

/-!
# The loops over length-prefixed frames

Source: hft_test/src/hft_main.cpp:349-393 and simex_server.cpp:77-126, which share
one shape. Receiving: append what `recv` returned to the buffer, take frames off
with `unpack_frame`, erase the consumed prefix; `frameLoop` is that loop with its
body as a parameter, the streaming decoder of the frame code `lengthPrefixed`.
Sending: call `::send` on the rest of the frame until it is empty; the two
programs differ in the errors after which they call again.
-/

set_option autoImplicit false

namespace CppCodes.Source.HftTest

open CppCodes.Library

variable {σ : Type*}

theorem ntohl_htonl {n : Nat} (h : n < 2 ^ 32) : ntohl (htonl n) = n := by
  have hrev : leBytes 4 (ofLeBytes (leBytes 4 n).reverse) = (leBytes 4 n).reverse := by
    have hb := leBytes_ofLeBytes (leBytes 4 n).reverse
    rwa [List.length_reverse, leBytes_length] at hb
  unfold ntohl htonl
  rw [hrev, List.reverse_reverse, ofLeBytes_leBytes]
  exact Nat.mod_eq_of_lt (by omega)

theorem htonl_ntohl {n : Nat} (h : n < 2 ^ 32) : htonl (ntohl n) = n := ntohl_htonl h

theorem ntohl_lt (n : Nat) : ntohl n < 2 ^ 32 := by
  have h := ofLeBytes_lt (leBytes 4 n).reverse
  rw [List.length_reverse, leBytes_length] at h
  exact h

@[simp] theorem packWithLength_length (data : Bytes) :
    (packWithLength data).length = 4 + data.length := by
  simp [packWithLength]

/-- Split one frame off the front of a buffer, as `unpack_frame` does at offset 0. -/
def splitFrame (bytes : Bytes) : Option (Bytes × Bytes) :=
  match unpackFrame bytes 0 [] with
  | (false, _) => none
  | (true, consumed, payload) => some (payload, bytes.drop consumed)

/-- `unpack_frame` at an offset only looks at the bytes from there on. -/
theorem unpackFrame_drop (buf : Bytes) (offset : Nat) (payload : Bytes) :
    unpackFrame buf offset payload =
      match splitFrame (buf.drop offset) with
      | none => (false, offset, payload)
      | some (data, _) => (true, offset + (4 + data.length), data) := by
  have hlen : (buf.drop offset).length = buf.length - offset := List.length_drop
  unfold splitFrame unpackFrame
  simp only [hlen, Nat.zero_add, Nat.add_zero, List.drop_drop]
  by_cases hshort : offset + 4 > buf.length
  · simp only [if_pos hshort, if_pos (show 4 > buf.length - offset by omega)]
  · simp only [if_neg hshort, if_neg (show ¬ 4 > buf.length - offset by omega)]
    by_cases hcut : offset + 4 + ntohl (ofLeBytes ((buf.drop offset).take 4)) > buf.length
    · simp only [if_pos hcut, if_pos (show 4 + ntohl (ofLeBytes ((buf.drop offset).take 4)) >
        buf.length - offset by omega)]
    · simp only [if_neg hcut, if_neg (show ¬ 4 + ntohl (ofLeBytes ((buf.drop offset).take 4)) >
        buf.length - offset by omega), List.length_take, List.length_drop, Prod.mk.injEq, and_true,
        true_and]
      omega

theorem splitFrame_packWithLength (data rest : Bytes) (h : data.length < 2 ^ 32) :
    splitFrame (packWithLength data ++ rest) = some (data, rest) := by
  have hbytes : packWithLength data ++ rest = leBytes 4 (htonl data.length) ++ (data ++ rest) := by
    rw [packWithLength, Nat.mod_eq_of_lt h, List.append_assoc]
  have hword : htonl data.length < 256 ^ 4 := by
    have hb := ofLeBytes_lt (leBytes 4 data.length).reverse
    rwa [List.length_reverse, leBytes_length] at hb
  have htake : (packWithLength data ++ rest).take 4 = leBytes 4 (htonl data.length) := by
    rw [hbytes, List.take_append_of_le_length (by simp), List.take_of_length_le (by simp)]
  have hdrop : (packWithLength data ++ rest).drop 4 = data ++ rest := by
    rw [hbytes, List.drop_append_of_le_length (by simp), List.drop_of_length_le (by simp),
      List.nil_append]
  have hlen : (packWithLength data ++ rest).length = 4 + data.length + rest.length := by simp
  unfold splitFrame unpackFrame
  rw [if_neg (by omega)]
  simp only [List.drop_zero, htake, ofLeBytes_leBytes, Nat.mod_eq_of_lt hword, ntohl_htonl h,
    Nat.zero_add, hdrop]
  rw [if_neg (by omega)]
  simp only [List.take_left, Option.some.injEq, Prod.mk.injEq, true_and]
  rw [← List.drop_drop, hdrop, List.drop_left]

theorem splitFrame_sound {bytes data rest : Bytes} (h : splitFrame bytes = some (data, rest)) :
    data.length < 2 ^ 32 ∧ bytes = packWithLength data ++ rest := by
  unfold splitFrame unpackFrame at h
  by_cases hshort : 0 + 4 > bytes.length
  · rw [if_pos hshort] at h
    cases h
  · rw [if_neg hshort] at h
    simp only [List.drop_zero, Nat.zero_add] at h hshort
    by_cases hcut : 4 + ntohl (ofLeBytes (bytes.take 4)) > bytes.length
    · rw [if_pos hcut] at h
      cases h
    · rw [if_neg hcut] at h
      simp only [Option.some.injEq, Prod.mk.injEq] at h
      obtain ⟨rfl, rfl⟩ := h
      have hlen : ((bytes.drop 4).take (ntohl (ofLeBytes (bytes.take 4)))).length =
          ntohl (ofLeBytes (bytes.take 4)) := by
        rw [List.length_take, List.length_drop]
        omega
      have hfour : (bytes.take 4).length = 4 := by
        rw [List.length_take]
        omega
      have hword : ofLeBytes (bytes.take 4) < 2 ^ 32 := by
        have hb := ofLeBytes_lt (bytes.take 4)
        rwa [hfour] at hb
      have hhead : leBytes 4 (ofLeBytes (bytes.take 4)) = bytes.take 4 := by
        have hb := leBytes_ofLeBytes (bytes.take 4)
        rwa [hfour] at hb
      refine ⟨by rw [hlen]; exact ntohl_lt _, ?_⟩
      rw [packWithLength, hlen, Nat.mod_eq_of_lt (ntohl_lt _), htonl_ntohl hword, hhead,
        List.append_assoc, ← List.drop_drop, List.take_append_drop, List.take_append_drop]

/-- The frames of the protocol as a self-delimiting code. -/
def lengthPrefixed : FrameCode Bytes UInt8 where
  Valid data := data.length < 2 ^ 32
  encode := packWithLength
  decode := splitFrame
  decode_encode := splitFrame_packWithLength
  decode_sound := splitFrame_sound
  encode_ne_nil data h := by
    have hlen := packWithLength_length data
    rw [h, List.length_nil] at hlen
    omega

/-- `while (unpack_frame(buf, offset, payload)) body(payload)`; returns the state
of the body and the final offset. -/
def frameLoop (buf : Bytes) (body : σ → Bytes → σ) (offset : Nat) (payload : Bytes) (s : σ) :
    σ × Nat :=
  match _h : unpackFrame buf offset payload with
  | (false, last, _) => (s, last)
  | (true, next, data) => frameLoop buf body next data (body s data)
termination_by buf.length - offset
decreasing_by
  unfold unpackFrame at _h
  split at _h
  · cases _h
  · dsimp only at _h
    split at _h
    · cases _h
    · simp only [Prod.mk.injEq, true_and] at _h
      omega

/-- One arrival: append, run the loop from offset 0, erase the consumed prefix. -/
def receive (body : σ → Bytes → σ) (state : Bytes × σ) (chunk : Bytes) : Bytes × σ :=
  let buf := state.1 ++ chunk
  let (s, offset) := frameLoop buf body 0 [] state.2
  (buf.drop offset, s)

/-- The loop runs its body on the frames of the streaming decoder, in order, and
stops where no complete frame is left. -/
theorem frameLoop_eq (buf : Bytes) (body : σ → Bytes → σ) (offset : Nat) (payload : Bytes) (s : σ)
    (h : offset ≤ buf.length) :
    frameLoop buf body offset payload s =
      ((lengthPrefixed.decodeAll (buf.drop offset)).1.foldl body s,
        buf.length - (lengthPrefixed.decodeAll (buf.drop offset)).2.length) := by
  induction hn : buf.length - offset using Nat.strongRecOn generalizing offset payload s with
  | ind n ih =>
    have hstep := unpackFrame_drop buf offset payload
    rw [frameLoop]
    cases hd : splitFrame (buf.drop offset) with
    | none =>
      rw [hd] at hstep
      rw [lengthPrefixed.decodeAll_none hd]
      split
      · next he =>
        rw [hstep] at he
        cases he
        simp only [List.foldl_nil, List.length_drop, Prod.mk.injEq, true_and]
        omega
      · next he =>
        rw [hstep] at he
        cases he
    | some split =>
      obtain ⟨data, rest⟩ := split
      rw [hd] at hstep
      obtain ⟨-, hbytes⟩ := splitFrame_sound hd
      have hlen : (buf.drop offset).length = 4 + data.length + rest.length := by simp [hbytes]
      have hrest : buf.drop (offset + (4 + data.length)) = rest := by
        rw [← List.drop_drop, hbytes, ← packWithLength_length, List.drop_left]
      rw [List.length_drop] at hlen
      rw [lengthPrefixed.decodeAll_some hd]
      split
      · next he =>
        rw [hstep] at he
        cases he
      · next he =>
        rw [hstep] at he
        cases he
        rw [ih (buf.length - (offset + (4 + data.length))) (by omega) _ _ _ (by omega) rfl, hrest]
        rfl

/-- Receiving is feeding the streaming decoder. -/
theorem receive_eq (body : σ → Bytes → σ) (buf chunk : Bytes) (s : σ) :
    receive body (buf, s) chunk =
      ((lengthPrefixed.decodeAll (buf ++ chunk)).2,
        (lengthPrefixed.decodeAll (buf ++ chunk)).1.foldl body s) := by
  obtain ⟨hbytes, -⟩ := lengthPrefixed.decodeAll_sound (buf ++ chunk)
  have hlen := congrArg List.length hbytes
  have hdrop : (buf ++ chunk).length - (lengthPrefixed.decodeAll (buf ++ chunk)).2.length =
      ((lengthPrefixed.decodeAll (buf ++ chunk)).1.flatMap lengthPrefixed.encode).length := by
    rw [hlen, List.length_append]
    omega
  unfold receive
  dsimp only
  rw [frameLoop_eq _ _ _ _ _ (Nat.zero_le _), List.drop_zero, hdrop]
  rw [lengthPrefixed.decodeAll_left]

/-- Chunk boundaries are invisible to the body. -/
theorem receive_foldl (body : σ → Bytes → σ) (chunks : List Bytes) (s : σ) :
    chunks.foldl (receive body) ([], s) =
      ((lengthPrefixed.decodeAll chunks.flatten).2,
        (lengthPrefixed.decodeAll chunks.flatten).1.foldl body s) := by
  have hfeed : ∀ (payloads : List Bytes) (buf : Bytes), chunks.foldl (receive body)
      (buf, payloads.foldl body s) =
      ((chunks.foldl lengthPrefixed.feed (payloads, buf)).2,
        (chunks.foldl lengthPrefixed.feed (payloads, buf)).1.foldl body s) := by
    induction chunks with
    | nil => exact fun payloads buf => rfl
    | cons chunk chunks ih =>
      intro payloads buf
      rw [List.foldl_cons, List.foldl_cons, receive_eq, ← List.foldl_append, ih]
      rfl
  have h := hfeed [] []
  rwa [lengthPrefixed.feed_foldl] at h

/-! ## Sending a frame -/

/-- What `::send` returned: a count, or -1 with `errno` set to `EAGAIN` (or
`EWOULDBLOCK`), to `EINTR`, or to anything else. -/
inductive SendResult where
  | accepted (n : Nat)
  | eagain
  | eintr
  | otherError
  deriving DecidableEq

/-- Where a loop over `::send` stands after a call: about to call again, or past
the loop. -/
inductive SendNext where
  | again (sent : Nat)
  | done
  deriving DecidableEq

/-- One call of `::send(fd, frame + sent, size - sent, 0)` in the loop that tries
again after the errors `retried`, and the octets the socket took. The socket
takes at least one octet and never more than it was given. -/
def sendStep (retried : SendResult → Bool) (frame : Bytes) (sent : Nat) :
    SendResult → Option (SendNext × Bytes)
  | .accepted n =>
      if 0 < n ∧ n ≤ frame.length - sent then
        some (if sent + n < frame.length then .again (sent + n) else .done,
          (frame.drop sent).take n)
      else none
  | failure => some (if retried failure then .again sent else .done, [])

theorem sendStep_accepted {retried : SendResult → Bool} {frame taken : Bytes} {sent n : Nat}
    {next : SendNext} (h : sendStep retried frame sent (.accepted n) = some (next, taken)) :
    taken ≠ [] ∧ frame.drop sent = taken ++ frame.drop (sent + n) ∧
      next = if sent + n < frame.length then .again (sent + n) else .done := by
  rw [sendStep] at h
  by_cases hn : 0 < n ∧ n ≤ frame.length - sent
  · rw [if_pos hn, Option.some.injEq, Prod.mk.injEq] at h
    obtain ⟨hnext, htaken⟩ := h
    have hlen : taken.length = n := by
      rw [← htaken, List.length_take, List.length_drop]
      omega
    refine ⟨?_, ?_, hnext.symm⟩
    · intro he
      rw [he, List.length_nil] at hlen
      omega
    · rw [← htaken, ← List.drop_drop, List.take_append_drop]
  · rw [if_neg hn] at h
    cases h

theorem sendStep_failed {retried : SendResult → Bool} {frame taken : Bytes} {sent : Nat}
    {r : SendResult} {next : SendNext} (hr : ∀ n, r ≠ .accepted n)
    (h : sendStep retried frame sent r = some (next, taken)) :
    taken = [] ∧ next = if retried r then .again sent else .done := by
  cases r with
  | accepted n => exact absurd rfl (hr n)
  | _ =>
    simp only [sendStep, Option.some.injEq, Prod.mk.injEq] at h
    exact ⟨h.2.symm, h.1.symm⟩

/-- The octets the socket takes are the next ones of the frame. -/
theorem sendStep_again {retried : SendResult → Bool} {frame taken : Bytes} {sent sent' : Nat}
    {r : SendResult} (h : sendStep retried frame sent r = some (.again sent', taken)) :
    frame.drop sent = taken ++ frame.drop sent' := by
  by_cases hr : ∃ n, r = .accepted n
  · obtain ⟨n, rfl⟩ := hr
    obtain ⟨-, hsplit, hnext⟩ := sendStep_accepted h
    split at hnext
    · cases hnext
      exact hsplit
    · cases hnext
  · obtain ⟨rfl, hnext⟩ := sendStep_failed (not_exists.mp hr) h
    split at hnext
    · cases hnext
      rfl
    · cases hnext

/-- A loop that is left has sent the whole frame, unless an error ended it. -/
theorem sendStep_done {retried : SendResult → Bool} {frame taken : Bytes} {sent : Nat}
    {r : SendResult} (h : sendStep retried frame sent r = some (.done, taken)) :
    frame.drop sent = taken ∨ (retried r = false ∧ (∀ n, r ≠ .accepted n) ∧ taken = []) := by
  by_cases hr : ∃ n, r = .accepted n
  · obtain ⟨n, rfl⟩ := hr
    obtain ⟨-, hsplit, hnext⟩ := sendStep_accepted h
    split at hnext
    · cases hnext
    · have hrest : frame.drop (sent + n) = [] := List.drop_of_length_le (by omega)
      rw [hrest, List.append_nil] at hsplit
      exact Or.inl hsplit
  · obtain ⟨htaken, hnext⟩ := sendStep_failed (not_exists.mp hr) h
    split at hnext
    · cases hnext
    · next hretry => exact Or.inr ⟨by simpa using hretry, not_exists.mp hr, htaken⟩

/-- What is left of the frame for the loop to send. -/
def SendNext.left (frame : Bytes) : SendNext → Bytes
  | .again sent => frame.drop sent
  | .done => []

/-- A call takes the front of what is left, unless an error makes the loop give up. -/
theorem sendStep_left {retried : SendResult → Bool} {frame taken : Bytes} {sent : Nat}
    {r : SendResult} {next : SendNext} (h : sendStep retried frame sent r = some (next, taken)) :
    frame.drop sent = taken ++ next.left frame ∨
      (retried r = false ∧ (∀ n, r ≠ .accepted n) ∧ taken = [] ∧ next.left frame = []) := by
  cases next with
  | again sent' => exact Or.inl (sendStep_again h)
  | done =>
    rcases sendStep_done h with hall | ⟨hgive, hfail, htaken⟩
    · exact Or.inl (hall.trans (List.append_nil taken).symm)
    · exact Or.inr ⟨hgive, hfail, htaken, rfl⟩

end CppCodes.Source.HftTest
