import CppCodes.Guarantees.RingServerOutput
import CppCodes.Guarantees.StreamOutput
import CppCodes.System.LineNetwork

/-!
# What is typed at a client is what the server writes

A client sends the lines of its input up to `exit`, each with a line feed, and a server
writes what it gets. So what a server has written is always the beginning of those lines,
and when it closes the connection of a client that has not given up it is all of them.
-/

set_option autoImplicit false

namespace CppCodes.Guarantees.TypedLines

open Library Library.LineInput
open Source.Net
open Source.Net.LineClients
open StreamOutput (Complete)
open System.LineNetwork (NetServer fromClient shown)

/-- The lines up to `exit`, each ended by a line feed. -/
def transcript (text : Bytes) : Bytes :=
  joinLines lineFeed ((splitLines lineFeed text).takeWhile (· ≠ exitLine))

/-! ## One client -/

/-- The lines are those that have been read of the text, and `input` is what is left. -/
inductive Reads (text : Bytes) (lines : List Bytes) (input : Bytes) (ended : Bool) : Prop where
  | lines (h : text = joinLines lineFeed lines ++ input)
  /-- The last line ends with the text. -/
  | last (before : List Bytes) (line : Bytes) (hlines : lines = before ++ [line]) (hne : line ≠ [])
      (h : text = joinLines lineFeed before ++ line) (hinput : input = []) (hended : ended = true)

/-- The client goes on: what it has sent and has in hand are the lines it has read. -/
def Serving (c : Client) (text sent unsent : Bytes) : Prop :=
  ∃ lines, (∀ line ∈ lines, lineFeed ∉ line ∧ line ≠ exitLine) ∧
    Reads text lines c.input c.ended ∧ joinLines lineFeed lines = sent ++ unsent

/-- Whatever is typed later, what has been sent is the beginning of the transcript, and all
of it if the client has not given up. -/
structure Settled (ended : Bool) (text sent : Bytes) (gaveUp : Prop) : Prop where
  begins : ∀ more, (ended = true → more = []) → sent <+: transcript (text ++ more)
  whole : ¬ gaveUp → ∀ more, (ended = true → more = []) → transcript (text ++ more) = sent

def gone : Pc → Bool
  | .closed | .failed => true
  | _ => false

/-- The octets that `send_all` has still to send. -/
def unsent : Pc → Bytes
  | .sending data totalSent _ => data.drop totalSent
  | _ => []

structure Ok (c : Client) (text sent : Bytes) (gaveUp finished : Prop) : Prop where
  serving : gone c.pc = false → Serving c text sent (unsent c.pc) ∧ ¬ finished
  settled : gone c.pc = true → Settled c.ended text sent gaveUp

variable {text input sent more : Bytes} {lines : List Bytes} {ended : Bool} {c : Client}

theorem Reads.type (h : Reads text lines input ended) (hmore : ended = true → more = []) :
    Reads (text ++ more) lines (input ++ more) ended := by
  cases h with
  | lines h => exact .lines (by rw [h, List.append_assoc])
  | last before line hlines hne h hinput hended =>
    rw [hmore hended, List.append_nil, List.append_nil]
    exact .last before line hlines hne h hinput hended

theorem Reads.splitLines (h : Reads text lines input ended) (hfree : ∀ line ∈ lines, lineFeed ∉ line) :
    LineInput.splitLines lineFeed text = lines ++ LineInput.splitLines lineFeed input := by
  cases h with
  | lines h => rw [h, splitLines_joinLines_append hfree]
  | last before line hlines hne h hinput hended =>
    subst hlines hinput
    rw [h, splitLines_joinLines_append fun l hl => hfree l (List.mem_append_left _ hl),
      splitLines_of_notMem hne (hfree line (by simp))]
    simp [LineInput.splitLines]

/-- The transcript begins with the lines that have been read. -/
theorem Reads.transcript (h : Reads text lines input ended)
    (hlines : ∀ line ∈ lines, lineFeed ∉ line ∧ line ≠ exitLine) :
    TypedLines.transcript text = joinLines lineFeed lines ++ TypedLines.transcript input := by
  rw [TypedLines.transcript, h.splitLines fun line hline => (hlines line hline).1,
    List.takeWhile_append_of_pos, joinLines_append, TypedLines.transcript]
  intro line hline
  simpa using (hlines line hline).2

theorem Serving.begins {unsent : Bytes} (h : Serving c text sent unsent) (more : Bytes)
    (hmore : c.ended = true → more = []) : sent <+: transcript (text ++ more) := by
  obtain ⟨lines, hlines, hreads, hsent⟩ := h
  rw [(hreads.type hmore).transcript hlines, hsent, List.append_assoc]
  exact List.prefix_append ..

/-- A client that gives up. -/
theorem Serving.settled {unsent : Bytes} {gaveUp : Prop} (h : Serving c text sent unsent)
    (hgave : gaveUp) : Settled c.ended text sent gaveUp :=
  ⟨h.begins, fun hnot => absurd hgave hnot⟩

theorem transcript_nil : transcript [] = [] := by
  simp [transcript, splitLines, joinLines]

/-- The input has ended and has been read. -/
theorem Serving.settled_of_ended {gaveUp : Prop} (h : Serving c text sent []) (hinput : c.input = [])
    (hended : c.ended = true) : Settled c.ended text sent gaveUp := by
  refine ⟨h.begins, fun _ more hmore => ?_⟩
  obtain ⟨lines, hlines, hreads, hsent⟩ := h
  rw [hmore hended, List.append_nil, hreads.transcript hlines, hsent, hinput, transcript_nil,
    List.append_nil, List.append_nil]

/-- A line that says `exit` ends the transcript. -/
theorem transcript_exit (rest : Bytes) (hline : lineFeed ∉ exitLine)
    (h : input = exitLine ++ lineFeed :: rest ∨ input = exitLine ∧ rest = []) :
    transcript input = [] := by
  rcases h with rfl | ⟨rfl, -⟩
  · rw [transcript, splitLines_append hline]
    simp [joinLines]
  · rw [transcript, splitLines_of_notMem (by decide) hline]
    simp [joinLines]

theorem Serving.settled_of_exit {gaveUp : Prop} {rest : Bytes} (h : Serving c text sent [])
    (hready : lineFeed ∈ c.input ∨ c.ended = true)
    (hline : getline lineFeed c.input = some (exitLine, rest)) :
    Settled c.ended text sent gaveUp := by
  refine ⟨h.begins, fun _ more hmore => ?_⟩
  obtain ⟨lines, hlines, hreads, hsent⟩ := h
  obtain ⟨hfree, hcases⟩ := getline_spec hline
  have hexit : transcript (c.input ++ more) = [] := by
    rcases hcases with hfeed | ⟨hinput, -, -⟩
    · refine transcript_exit (rest ++ more) hfree (Or.inl ?_)
      rw [hfeed, List.append_assoc, List.cons_append]
    · have hended : c.ended = true := hready.resolve_left (hinput ▸ hfree)
      rw [hmore hended, List.append_nil]
      exact transcript_exit [] hfree (Or.inr ⟨hinput, rfl⟩)
  rw [(hreads.type hmore).transcript hlines, hsent, hexit, List.append_nil, List.append_nil]

/-- A line is read. -/
theorem Serving.getline {line rest : Bytes} (h : Serving c text sent [])
    (hready : lineFeed ∈ c.input ∨ c.ended = true)
    (hline : LineInput.getline lineFeed c.input = some (line, rest)) (hne : line ≠ exitLine)
    (pc : Pc) : Serving { c with input := rest, pc := pc } text sent (line ++ [lineFeed]) := by
  obtain ⟨lines, hlines, hreads, hsent⟩ := h
  obtain ⟨hfree, hcases⟩ := getline_spec hline
  refine ⟨lines ++ [line], ?_, ?_, ?_⟩
  · intro l hl
    rcases List.mem_append.mp hl with hold | hnew
    · exact hlines l hold
    · rw [List.mem_singleton.mp hnew]
      exact ⟨hfree, hne⟩
  · cases hreads with
    | last before last hbefore hlast htext hinput hended =>
      rw [hinput] at hline
      cases hline
    | lines htext =>
      rcases hcases with hfeed | ⟨hinput, hsome, hrest⟩
      · refine .lines ?_
        rw [htext, hfeed, joinLines_append, joinLines_singleton]
        simp
      · have hended : c.ended = true := hready.resolve_left (hinput ▸ hfree)
        exact .last lines line rfl hsome (by rw [htext, hinput]) hrest hended
  · rw [joinLines_append, joinLines_singleton, hsent, List.append_nil]

/-! ## A step of a client -/

def typedBy (notes : List Note) : Bytes :=
  notes.flatMap fun
    | .typed data => data
    | .gaveUp => []

def sentBy : Option NetAction → Bytes
  | some (.send _ data) => data
  | _ => []

/-- What a step of the client does to the network is about its own connection. -/
def Own (id : Nat) (net : Option NetAction) : Prop :=
  net = none ∨ net = some (.connect id) ∨ net = some (.finish id) ∨ ∃ data, net = some (.send id data)

/-- The client after a step, with what the step adds to its history. -/
structure After (id : Nat) (o : Outcome) (text sent : Bytes) (gaveUp finished : Prop) : Prop where
  ok : Ok o.client (text ++ typedBy o.notes) (sent ++ sentBy o.net)
    (gaveUp ∨ Note.gaveUp ∈ o.notes) (finished ∨ o.net = some (.finish id))
  own : Own id o.net
  calls : o.net = none ∨ ¬ finished

variable {gaveUp finished : Prop} {id : Nat} {kind : Kind} {a : LineClients.Action} {o : Outcome}

/-- The client goes on with nothing in hand. -/
theorem Ok.go (ok : Ok c text sent gaveUp finished) (hpc : gone c.pc = false)
    (hunsent : unsent c.pc = []) {pc : Pc} (hnext : gone pc = false) (hnothing : unsent pc = [])
    {net : Option NetAction} (hnet : net = none ∨ net = some (.connect id)) :
    After id { client := { c with pc := pc }, net := net } text sent gaveUp finished := by
  obtain ⟨hserving, hopen⟩ := ok.serving hpc
  have hsent : sentBy net = [] := by rcases hnet with rfl | rfl <;> rfl
  have hfinish : net ≠ some (.finish id) := by rcases hnet with rfl | rfl <;> simp
  refine ⟨⟨fun _ => ⟨?_, by simp [hopen, hfinish]⟩, fun hgone => absurd hgone (by simp [hnext])⟩, ?_, Or.inr hopen⟩
  · rw [hunsent] at hserving
    have hafter : Serving c (text ++ typedBy []) (sent ++ sentBy net) (unsent pc) := by
      simpa [typedBy, hsent, hnothing] using hserving
    exact hafter
  · exact hnet.imp_right Or.inl

theorem Ok.giveUp (ok : Ok c text sent gaveUp finished) (hpc : gone c.pc = false) {pc : Pc}
    (hgone : gone pc = true) {net : Option NetAction} (hnet : net = none ∨ net = some (.finish id)) :
    After id { client := { c with pc := pc }, net := net, notes := [.gaveUp] } text sent gaveUp
      finished := by
  obtain ⟨hserving, hopen⟩ := ok.serving hpc
  have hsent : sentBy net = [] := by rcases hnet with rfl | rfl <;> rfl
  refine ⟨⟨fun hgoes => absurd hgoes (by simp [hgone]), fun _ => ?_⟩, ?_, Or.inr hopen⟩
  · have hgave : gaveUp ∨ Note.gaveUp ∈ [Note.gaveUp] := Or.inr (by simp)
    simpa [typedBy, hsent] using hserving.settled hgave
  · exact hnet.imp_right fun h => Or.inr (Or.inl h)

theorem Ok.leave (settled : Settled c.ended text sent gaveUp) (hopen : ¬ finished) :
    After id (LineClients.leave id c) text sent gaveUp finished := by
  refine ⟨⟨fun hgoes => absurd hgoes (by simp [LineClients.leave, gone]), fun _ => ?_⟩, ?_,
    Or.inr hopen⟩
  · simpa [LineClients.leave, typedBy, sentBy] using settled
  · exact Or.inr (Or.inr (Or.inl rfl))

theorem Ok.type (ok : Ok c text sent gaveUp finished) (hended : c.ended = false) (data : Bytes) :
    After id { client := { c with input := c.input ++ data }, notes := [.typed data] } text sent
      gaveUp finished := by
  have hnever : ∀ {more : Bytes}, c.ended = true → more = [] := fun htrue => by simp [hended] at htrue
  refine ⟨⟨fun hpc => ?_, fun hpc => ?_⟩, Or.inl rfl, Or.inl rfl⟩
  · obtain ⟨⟨lines, hlines, hreads, hsent⟩, hopen⟩ := ok.serving hpc
    refine ⟨⟨lines, hlines, ?_, ?_⟩, by simp [hopen]⟩
    · simpa [typedBy] using hreads.type hnever
    · simpa [sentBy] using hsent
  · have settled := ok.settled hpc
    constructor
    · intro more _
      simpa [typedBy, sentBy, List.append_assoc] using settled.begins (data ++ more) hnever
    · intro hnot more _
      have hwhole := settled.whole (fun hgave => hnot (Or.inl hgave)) (data ++ more) hnever
      simpa [typedBy, sentBy, List.append_assoc] using hwhole

theorem Ok.endInput (ok : Ok c text sent gaveUp finished) :
    After id { client := { c with ended := true } } text sent gaveUp finished := by
  refine ⟨⟨fun hpc => ?_, fun hpc => ?_⟩, Or.inl rfl, Or.inl rfl⟩
  · obtain ⟨⟨lines, hlines, hreads, hsent⟩, hopen⟩ := ok.serving hpc
    refine ⟨⟨lines, hlines, ?_, by simpa [sentBy] using hsent⟩, by simp [hopen]⟩
    cases hreads with
    | lines h => exact .lines (by simpa [typedBy] using h)
    | last before line hbefore hne h hinput _ =>
      exact .last before line hbefore hne (by simpa [typedBy] using h) hinput rfl
  · have settled := ok.settled hpc
    constructor
    · intro more hmore
      rw [hmore rfl]
      simpa [typedBy, sentBy] using settled.begins [] fun _ => rfl
    · intro hnot more hmore
      rw [hmore rfl]
      simpa [typedBy, sentBy] using settled.whole (fun hgave => hnot (Or.inl hgave)) [] fun _ => rfl

theorem Ok.getline (ok : Ok c text sent gaveUp finished) {events : List Ready}
    (hpc : c.pc = .prompting events) (hready : lineFeed ∈ c.input ∨ c.ended = true)
    (hstep : (match LineInput.getline lineFeed c.input with
      | none => some (LineClients.leave id c)
      | some (line, rest) =>
          if line = exitLine then some (LineClients.leave id { c with input := rest })
          else some { client := { c with
            input := rest
            pc := .sending (line ++ [lineFeed]) 0 events } }) = some o) :
    After id o text sent gaveUp finished := by
  obtain ⟨hserving, hopen⟩ := ok.serving (by simp [hpc, gone])
  rw [show unsent c.pc = [] by rw [hpc]; rfl] at hserving
  cases hline : LineInput.getline lineFeed c.input with
  | none =>
    rw [hline] at hstep
    cases hstep
    have hinput := getline_eq_none_iff.mp hline
    have hended : c.ended = true := hready.resolve_left (by simp [hinput])
    exact Ok.leave (hserving.settled_of_ended hinput hended) hopen
  | some next =>
    obtain ⟨line, rest⟩ := next
    simp only [hline] at hstep
    by_cases hexit : line = exitLine
    · subst hexit
      rw [if_pos rfl] at hstep
      cases hstep
      exact Ok.leave (c := { c with input := rest }) (hserving.settled_of_exit hready hline) hopen
    · rw [if_neg hexit] at hstep
      cases hstep
      refine ⟨⟨fun _ => ⟨?_, by simp [hopen]⟩, fun hgone => by simp [gone] at hgone⟩, Or.inl rfl, Or.inl rfl⟩
      simpa [typedBy, sentBy, unsent] using
        hserving.getline hready hline hexit (.sending (line ++ [lineFeed]) 0 events)

theorem Ok.send (ok : Ok c text sent gaveUp finished) {data : Bytes} {totalSent n : Nat}
    {events : List Ready} (hpc : c.pc = .sending data totalSent events) :
    After id {
      client := { c with
        pc :=
          if totalSent + n < data.length then .sending data (totalSent + n) events
          else nextTurn kind events }
      net := some (.send id ((data.drop totalSent).take n)) } text sent gaveUp finished := by
  obtain ⟨⟨lines, hlines, hreads, hsent⟩, hopen⟩ := ok.serving (by simp [hpc, gone])
  have hleft : unsent (if totalSent + n < data.length then .sending data (totalSent + n) events
      else nextTurn kind events) = data.drop (totalSent + n) := by
    split
    · rfl
    · rw [List.drop_of_length_le (by omega)]
      cases kind <;> rfl
  refine ⟨⟨fun _ => ⟨⟨lines, hlines, ?_, ?_⟩, by simp [hopen]⟩, ?_⟩, ?_, Or.inr hopen⟩
  · simpa [typedBy] using hreads
  · rw [hsent, hpc, hleft, sentBy, unsent, List.append_assoc, ← List.drop_drop,
      List.take_append_drop]
  · intro hgone
    simp only at hgone
    split at hgone
    · simp [gone] at hgone
    · cases kind <;> simp [nextTurn, gone] at hgone
  · exact Or.inr (Or.inr (Or.inr ⟨_, rfl⟩))

theorem Ok.step (ok : Ok c text sent gaveUp finished) (hstep : LineClients.step kind id c a = some o) :
    After id o text sent gaveUp finished := by
  cases a with
  | type data =>
    simp only [LineClients.step] at hstep
    split at hstep
    · cases hstep
    · rename_i hended
      cases hstep
      exact ok.type (by simpa using hended) data
  | endInput =>
    cases hstep
    exact ok.endInput
  | connect =>
    simp only [LineClients.step] at hstep
    split at hstep
    · rename_i hpc
      cases hstep
      exact ok.go (by simp [hpc, gone]) (by simp [hpc, unsent]) (by cases kind <;> rfl)
        (by cases kind <;> rfl) (Or.inr rfl)
    · cases hstep
  | connectFails =>
    simp only [LineClients.step] at hstep
    split at hstep
    · rename_i hpc
      cases hstep
      exact ok.giveUp (by simp [hpc, gone]) rfl (Or.inl rfl)
    · cases hstep
  | epollWait events =>
    simp only [LineClients.step] at hstep
    split at hstep
    · rename_i hpc
      split at hstep
      · cases hstep
        exact ok.go (by simp [hpc, gone]) (by simp [hpc, unsent]) rfl rfl (Or.inl rfl)
      · cases hstep
    · cases hstep
  | epollFails =>
    simp only [LineClients.step] at hstep
    split at hstep
    · rename_i hpc
      cases hstep
      exact ok.giveUp (by simp [hpc, gone]) rfl (Or.inr rfl)
    · cases hstep
  | nextEvent =>
    simp only [LineClients.step] at hstep
    split at hstep
    · rename_i hpc
      cases hstep
      exact ok.go (by simp [hpc, gone]) (by simp [hpc, unsent]) rfl rfl (Or.inl rfl)
    · rename_i readable events hpc
      cases hstep
      exact ok.go (by simp [hpc, gone]) (by simp [hpc, unsent]) (by cases readable <;> rfl)
        (by cases readable <;> rfl) (Or.inl rfl)
    · rename_i hpc
      cases hstep
      exact ok.giveUp (by simp [hpc, gone]) rfl (Or.inr rfl)
    · cases hstep
  | getline =>
    simp only [LineClients.step] at hstep
    split at hstep
    · rename_i events hpc
      split at hstep
      · rename_i hready
        exact ok.getline hpc hready hstep
      · cases hstep
    · cases hstep
  | send n =>
    simp only [LineClients.step] at hstep
    split at hstep
    · rename_i data totalSent events hpc
      split at hstep
      · cases hstep
        exact ok.send hpc
      · cases hstep
    · cases hstep
  | sendInterrupted =>
    simp only [LineClients.step] at hstep
    split at hstep
    · cases hstep
      refine ⟨?_, Or.inl rfl, Or.inl rfl⟩
      simpa [typedBy, sentBy] using ok
    · cases hstep
  | sendFails =>
    simp only [LineClients.step] at hstep
    split at hstep
    · rename_i hpc
      cases hstep
      exact ok.giveUp (by simp [hpc, gone]) rfl (Or.inr rfl)
    · cases hstep

/-! ## The system -/

section Whole

open System.LineNetwork hiding Action

variable {S : NetServer} {kinds : Nat → Kind} {s t : State S} {b : System.LineNetwork.Action S}
  {trace seen : List (System.LineNetwork.Seen S)}

@[simp] theorem network_append : network (trace ++ seen) = network trace ++ network seen :=
  List.filterMap_append

@[simp] theorem notes_append {id : Nat} : notes id (trace ++ seen) = notes id trace ++ notes id seen :=
  List.filterMap_append

theorem typed_eq {id : Nat} : typed id trace = typedBy (notes id trace) := rfl

@[simp] theorem typed_append {id : Nat} : typed id (trace ++ seen) = typed id trace ++ typed id seen := by
  simp [typed]

@[simp] theorem network_map (es : List S.Seen) :
    network (es.map System.LineNetwork.Seen.server) = es.filterMap S.view := by
  rw [network, List.filterMap_map]
  rfl

@[simp] theorem network_notes (id : Nat) (notes : List Note) :
    network (notes.map (System.LineNetwork.Seen.note (S := S) id)) = [] := by
  simp [network, List.filterMap_map]

/-- Of a step, a client's notes are its own. -/
theorem notes_seen (id id' : Nat) (es : List S.Seen) (ns : List Note) :
    notes id' (es.map System.LineNetwork.Seen.server ++ ns.map (.note id)) =
      if id = id' then ns else [] := by
  rw [notes_append]
  by_cases hid : id = id' <;> simp [notes, List.filterMap_map, hid]

theorem typed_seen (id id' : Nat) (es : List S.Seen) (ns : List Note) :
    typed id' (es.map System.LineNetwork.Seen.server ++ ns.map (.note id)) =
      if id = id' then typedBy ns else [] := by
  rw [typed_eq, notes_seen]
  split <;> rfl

theorem gaveUp_seen (id id' : Nat) (es : List S.Seen) (ns : List Note) :
    GaveUp id' (es.map System.LineNetwork.Seen.server ++ ns.map (.note id)) ↔
      id = id' ∧ Note.gaveUp ∈ ns := by
  rw [GaveUp, notes_seen]
  by_cases hid : id = id' <;> simp [hid]

theorem sent_of_quiet {es : List Event} (h : ∀ e ∈ es, fromClient e = false) (id : Nat) :
    Source.Net.sent id es = [] ∧ .finished id ∉ es := by
  constructor
  · rw [Source.Net.sent, List.filterMap_eq_nil_iff.mpr, List.flatten_nil]
    intro e he
    have hquiet := h e he
    cases e <;> first | rfl | cases hquiet
  · intro hmem
    cases h _ hmem

/-- After a client has closed its connection it sends nothing more. -/
def NothingAfterEnd (before : List Event) (e : Event) : Prop :=
  ∀ id data, e = .sent id data → .finished id ∉ before

theorem each_quiet {before es : List Event} (h : Each NothingAfterEnd before)
    (hquiet : ∀ e ∈ es, fromClient e = false) : Each NothingAfterEnd (before ++ es) := by
  induction es using List.reverseRecOn with
  | nil =>
    rw [List.append_nil]
    exact h
  | append_singleton es e ih =>
    have hrest := ih fun e' he' => hquiet e' (List.mem_append_left _ he')
    rw [← List.append_assoc, each_snoc_iff]
    refine ⟨hrest, ?_⟩
    intro id data he
    have hlast := hquiet e (by simp)
    rw [he] at hlast
    cases hlast

structure Inv (s : State S) (trace : List (System.LineNetwork.Seen S)) : Prop where
  clients : ∀ id, Ok (s.clients id) (typed id trace) (Source.Net.sent id (network trace))
    (GaveUp id trace) (.finished id ∈ network trace)
  ends : Each NothingAfterEnd (network trace)

theorem inv_start : Inv (System.LineNetwork.start S) [] := by
  constructor
  · intro id
    refine ⟨fun _ => ⟨⟨[], by simp, ?_, rfl⟩, by simp [network]⟩, fun hgone => ?_⟩
    · exact .lines rfl
    · simp [System.LineNetwork.start, gone] at hgone
  · exact each_nil

/-! ### One step -/

theorem Ok.congr (ok : Ok c text sent gaveUp finished) {text' sent' : Bytes} {gaveUp' finished' : Prop}
    (htext : text' = text) (hsent : sent' = sent) (hgave : gaveUp' ↔ gaveUp)
    (hfinished : finished' ↔ finished) : Ok c text' sent' gaveUp' finished' := by
  rw [htext, hsent, propext hgave, propext hfinished]
  exact ok

theorem gaveUp_append {id : Nat} : GaveUp id (trace ++ seen) ↔ GaveUp id trace ∨ GaveUp id seen := by
  simp [GaveUp]

/-- The server and the network do nothing that a client does. -/
theorem Inv.quiet (inv : Inv s trace) {server : S.State} {es : List S.Seen}
    (hquiet : ∀ e ∈ es.filterMap S.view, fromClient e = false) :
    Inv { s with server := server } (trace ++ es.map .server) := by
  constructor
  · intro id
    obtain ⟨hsent, hopen⟩ := sent_of_quiet hquiet id
    have hnotes : notes id (es.map (System.LineNetwork.Seen.server (S := S))) = [] := by
      simp [notes, List.filterMap_map]
    have htyped : typed id (es.map (System.LineNetwork.Seen.server (S := S))) = [] := by
      rw [typed_eq, hnotes]
      rfl
    refine (inv.clients id).congr ?_ ?_ ?_ ?_
    · rw [typed_append, htyped, List.append_nil]
    · rw [network_append, network_map, sent_append, hsent, List.append_nil]
    · rw [gaveUp_append, GaveUp, GaveUp, hnotes]
      simp
    · rw [network_append, network_map, List.mem_append, or_iff_left hopen]
  · rw [network_append, network_map]
    exact each_quiet inv.ends hquiet

/-- What a client's step does to the network is seen of it. -/
theorem serve_seen {net : Option NetAction} {r : S.State × List S.Seen}
    (h : serve s net = some r) : r.2.filterMap S.view = (net.map shown).getD [] := by
  cases net with
  | none =>
    cases h
    rfl
  | some a => exact S.net_seen h

theorem shown_own {id : Nat} {net : Option NetAction} (hown : Own id net) {es : List Event}
    (hes : es = (net.map shown).getD []) (id' : Nat) :
    Source.Net.sent id' es = (if id = id' then sentBy net else []) ∧
      (.finished id' ∈ es ↔ id = id' ∧ net = some (.finish id)) := by
  subst hes
  rcases hown with rfl | rfl | rfl | ⟨data, rfl⟩
  · simp [sentBy]
  · simp [shown, sentBy]
  · simp [shown, sentBy, eq_comm]
  · simp [shown, sentBy, sent_sent]

theorem Inv.client (inv : Inv s trace) {id : Nat} {a : LineClients.Action} {o : Outcome}
    (hclient : LineClients.step (kinds id) id (s.clients id) a = some o)
    {r : S.State × List S.Seen} (hserve : serve s o.net = some r) :
    Inv ⟨r.1, Function.update s.clients id o.client⟩
      (trace ++ (r.2.map .server ++ o.notes.map (.note id))) := by
  obtain ⟨hok, hown, hcalls⟩ := (inv.clients id).step hclient
  have hshown := shown_own hown (serve_seen hserve)
  have hnetwork : network (r.2.map .server ++ o.notes.map (System.LineNetwork.Seen.note id)) =
      r.2.filterMap S.view := by
    rw [network_append, network_map, network_notes, List.append_nil]
  constructor
  · intro id'
    obtain ⟨hsent, hfinished⟩ := hshown id'
    by_cases hid : id = id'
    · subst hid
      dsimp only
      rw [Function.update_self]
      refine hok.congr ?_ ?_ ?_ ?_
      · rw [typed_append, typed_seen, if_pos rfl]
      · rw [network_append, hnetwork, sent_append, hsent, if_pos rfl]
      · rw [gaveUp_append, gaveUp_seen, and_iff_right rfl]
      · rw [network_append, hnetwork, List.mem_append, hfinished, and_iff_right rfl]
    · dsimp only
      rw [Function.update_of_ne (Ne.symm hid)]
      refine (inv.clients id').congr ?_ ?_ ?_ ?_
      · rw [typed_append, typed_seen, if_neg hid, List.append_nil]
      · rw [network_append, hnetwork, sent_append, hsent, if_neg hid, List.append_nil]
      · rw [gaveUp_append, gaveUp_seen]
        simp [hid]
      · rw [network_append, hnetwork, List.mem_append, hfinished]
        simp [hid]
  · rw [network_append, hnetwork]
    have hseen := serve_seen hserve
    rcases hown with hnet | hnet | hnet | ⟨data, hnet⟩
    · simpa [hseen, hnet] using inv.ends
    · simpa [hseen, hnet, shown] using inv.ends
    · rw [hseen, hnet]
      exact each_snoc_iff.mpr ⟨inv.ends, fun _ _ he => by cases he⟩
    · rw [hseen, hnet]
      refine each_snoc_iff.mpr ⟨inv.ends, ?_⟩
      intro id' data' he hended
      cases he
      rw [hnet] at hcalls
      exact hcalls.resolve_left (by simp) hended

theorem Inv.step (inv : Inv s trace) (hstep : System.LineNetwork.step kinds s b = some (t, seen)) :
    Inv t (trace ++ seen) := by
  cases b with
  | server a =>
    simp only [System.LineNetwork.step] at hstep
    split at hstep
    · rename_i hown
      obtain ⟨r, hserver, heq⟩ := Option.map_eq_some_iff.mp hstep
      cases heq
      exact inv.quiet (S.own_seen hown hserver)
    · cases hstep
  | client id a =>
    simp only [System.LineNetwork.step] at hstep
    split at hstep
    · cases hstep
    · rename_i o hclient
      obtain ⟨r, hserve, heq⟩ := Option.map_eq_some_iff.mp hstep
      cases heq
      exact inv.client hclient hserve

/-! ### The server's part of a run -/

/-- The condition on the steps of the server. -/
def Lifted (cond : S.State → S.Action → Prop) (s : State S) : System.LineNetwork.Action S → Prop
  | .server a => cond s.server a
  | .client .. => True

instance (cond : S.State → S.Action → Prop) [∀ s a, Decidable (cond s a)] (s : State S)
    (b : System.LineNetwork.Action S) : Decidable (Lifted cond s b) :=
  match b with
  | .server a => inferInstanceAs (Decidable (cond s.server a))
  | .client .. => isTrue trivial

/-- The server runs as it does alone. -/
theorem server_run {cond : S.State → S.Action → Prop} (hnet : ∀ s a, cond s (S.net a))
    {actions : List (System.LineNetwork.Action S)}
    (run : (machine kinds).Run (start S) actions t trace)
    (hmeet : (machine kinds).StepsMeet (Lifted cond) (start S) actions) :
    ∃ serverActions serverTrace, S.machine.Run S.start serverActions t.server serverTrace ∧
      network trace = serverTrace.filterMap S.view ∧
      S.machine.StepsMeet cond S.start serverActions := by
  refine run.invariant_of_steps (I := fun s trace => ∃ serverActions serverTrace,
    S.machine.Run S.start serverActions s.server serverTrace ∧
      network trace = serverTrace.filterMap S.view ∧
      S.machine.StepsMeet cond S.start serverActions) ⟨[], [], Machine.Run.nil _, rfl, trivial⟩ ?_ hmeet
  intro s trace b t seen before hcond hstep
  obtain ⟨serverActions, serverTrace, hrun, htrace, hbefore⟩ := before
  cases b with
  | server a =>
    simp only [machine, System.LineNetwork.step] at hstep
    split at hstep
    · obtain ⟨r, hserver, heq⟩ := Option.map_eq_some_iff.mp hstep
      cases heq
      refine ⟨serverActions ++ [a], serverTrace ++ r.2, hrun.append (Machine.Run.single hserver), ?_,
        (Machine.stepsMeet_snoc_iff hrun).mpr ⟨hbefore, hcond⟩⟩
      rw [network_append, network_map, htrace, List.filterMap_append]
    · cases hstep
  | client id a =>
    simp only [machine, System.LineNetwork.step] at hstep
    split at hstep
    · cases hstep
    · rename_i o hclient
      obtain ⟨r, hserve, heq⟩ := Option.map_eq_some_iff.mp hstep
      cases heq
      have hseen : network (r.2.map .server ++ o.notes.map (System.LineNetwork.Seen.note id)) =
          r.2.filterMap S.view := by
        rw [network_append, network_map, network_notes, List.append_nil]
      cases hnone : o.net with
      | none =>
        rw [hnone] at hserve
        cases hserve
        refine ⟨serverActions, serverTrace, hrun, ?_, hbefore⟩
        rw [network_append, hseen, htrace]
        simp
      | some act =>
        rw [hnone] at hserve
        refine ⟨serverActions ++ [S.net act], serverTrace ++ r.2,
          hrun.append (Machine.Run.single hserve), ?_,
          (Machine.stepsMeet_snoc_iff hrun).mpr ⟨hbefore, hnet _ _⟩⟩
        rw [network_append, hseen, htrace, List.filterMap_append]

/-! ### From the keyboard to the server's output -/

/-- What has been sent when the client has closed its connection is all that it sends. -/
theorem sent_of_ended {events before after : List Event} {id : Nat}
    (hends : Each NothingAfterEnd events) (hsplit : events = before ++ after)
    (hended : .finished id ∈ before) : Source.Net.sent id after = [] := by
  rw [Source.Net.sent, List.filterMap_eq_nil_iff.mpr, List.flatten_nil]
  intro e he
  obtain ⟨early, late, hafter⟩ := List.append_of_mem he
  have hnothing := hends (before ++ early) e late (by rw [hsplit, hafter, List.append_assoc])
  cases e with
  | sent id' data =>
    by_cases hid : id' = id
    · subst hid
      exact absurd (List.mem_append_left _ hended) (hnothing id' data rfl)
    · simp [sentOf, hid]
  | _ => rfl

/-- What a server that completes the streams writes of what is typed. -/
theorem Inv.written (inv : Inv s trace) (hcomplete : Complete (network trace)) (id : Nat) :
    output id (network trace) <+: transcript (typed id trace) ∧
      (.closed id ∈ network trace → ¬ GaveUp id trace →
        output id (network trace) = transcript (typed id trace)) := by
  have hbegins : output id (network trace) <+: Source.Net.sent id (network trace) :=
    hcomplete.inOrder _ List.prefix_rfl id
  have hok := inv.clients id
  have hsent : Source.Net.sent id (network trace) <+: transcript (typed id trace) := by
    cases hpc : gone (s.clients id).pc with
    | false => simpa using (hok.serving hpc).1.begins [] fun _ => rfl
    | true => simpa using (hok.settled hpc).begins [] fun _ => rfl
  refine ⟨hbegins.trans hsent, ?_⟩
  intro hclosed hkept
  obtain ⟨before, after, hsplit⟩ := List.append_of_mem hclosed
  obtain ⟨hwhole, hended⟩ := hcomplete.whole before _ after hsplit id rfl
  have hnothing := sent_of_ended inv.ends hsplit hended
  have hall : Source.Net.sent id (network trace) = Source.Net.sent id before := by
    rw [hsplit, sent_append, hnothing, List.append_nil]
  have houtput : output id (network trace) = Source.Net.sent id (network trace) := by
    refine hbegins.eq_of_length_le ?_
    rw [hall, ← hwhole, hsplit, output_append, List.length_append]
    exact Nat.le_add_right ..
  have hgone : gone (s.clients id).pc = true := by
    cases hpc : gone (s.clients id).pc with
    | true => rfl
    | false =>
      refine absurd ?_ (hok.serving hpc).2
      rw [hsplit]
      exact List.mem_append_left _ hended
  rw [houtput]
  simpa using ((hok.settled hgone).whole hkept [] fun _ => rfl).symm

end Whole

/-! ## The three servers -/

open System.LineNetwork (ServerKind server)

/-- What each of the servers needs: descriptors that a set has bits for; nothing unread when the
hang-up of a client is handled; no read that failed. -/
def Orderly : (k : ServerKind) → (server k).State → (server k).Action → Prop
  | .select _ => StreamOutput.Select.DescriptorsFit
  | .epoll => StreamOutput.Epoll.HangUpDrained
  | .ioUring _ => RingServerOutput.NoFailedRead

instance (k : ServerKind) (s : (server k).State) (a : (server k).Action) :
    Decidable (Orderly k s a) :=
  match k with
  | .select _ => (inferInstance : ∀ s a, Decidable (StreamOutput.Select.DescriptorsFit s a)) s a
  | .epoll => (inferInstance : ∀ s a, Decidable (StreamOutput.Epoll.HangUpDrained s a)) s a
  | .ioUring _ => (inferInstance : ∀ s a, Decidable (RingServerOutput.NoFailedRead s a)) s a

theorem complete_of_run (k : ServerKind) {actions : List (server k).Action} {s : (server k).State}
    {trace : List (server k).Seen} (run : (server k).machine.Run (server k).start actions s trace)
    (hmeet : (server k).machine.StepsMeet (Orderly k) (server k).start actions) :
    Complete (trace.filterMap (server k).view) := by
  cases k with
  | select listenFd =>
    rw [show trace.filterMap (server (.select listenFd)).view = trace from List.filterMap_some]
    exact (StreamOutput.Select.run_complete run).1
  | epoll =>
    rw [show trace.filterMap (server .epoll).view = trace from List.filterMap_some]
    exact (StreamOutput.Epoll.run_complete_iff run).mpr hmeet
  | ioUring listenFd => exact RingServerOutput.complete_of_run run hmeet

/-- Any number of clients of either kind send lines to one of the servers, which has what it needs
(`Orderly`). Whatever the order of the steps, and however the network cuts the streams, what the
server has written of a client is the beginning of the lines typed there up to `exit`, each with a
line feed; and when the server closes the connection of a client that has not given up, it is all
of them. -/
theorem typed_lines_written (k : ServerKind) (kinds : Nat → Kind)
    {actions : List (System.LineNetwork.Action (server k))} {t : System.LineNetwork.State (server k)}
    {trace : List (System.LineNetwork.Seen (server k))}
    (run : (System.LineNetwork.machine kinds).Run (System.LineNetwork.start (server k)) actions t
      trace)
    (hmeet : (System.LineNetwork.machine kinds).StepsMeet (Lifted (Orderly k))
      (System.LineNetwork.start (server k)) actions) (id : Nat) :
    output id (System.LineNetwork.network trace) <+:
        transcript (System.LineNetwork.typed id trace) ∧
      (.closed id ∈ System.LineNetwork.network trace → ¬ System.LineNetwork.GaveUp id trace →
        output id (System.LineNetwork.network trace) =
          transcript (System.LineNetwork.typed id trace)) := by
  have hnet : ∀ s a, Orderly k s ((server k).net a) := by
    intro s a
    cases k <;> trivial
  obtain ⟨serverActions, serverTrace, hserver, htrace, hserverMeet⟩ := server_run hnet run hmeet
  have hcomplete := complete_of_run k hserver hserverMeet
  rw [← htrace] at hcomplete
  have inv := run.invariant (I := Inv) inv_start fun inv hstep => inv.step hstep
  exact inv.written hcomplete id

/-- Someone types `hi`, `exit` and more. -/
def keys : List UInt8 := [104, 105, 10, 101, 120, 105, 116, 10, 104]

/-- The keys are typed at a select client of the select server. -/
def toSelect : List (System.LineNetwork.Action (server (.select 3))) :=
  [.client 7 (.type keys), .client 7 .connect,
    .server (SelectServer.Action.select [3]), .server SelectServer.Action.scan,
    .server SelectServer.Action.scan, .server SelectServer.Action.scan,
    .server (SelectServer.Action.accept 4), .server SelectServer.Action.scan,
    .client 7 .getline, .client 7 (.send 2), .client 7 (.send 1), .client 7 .getline,
    .server (SelectServer.Action.net (.deliver 7 3)),
    .server (SelectServer.Action.net (.deliverFin 7)),
    .server (SelectServer.Action.select [4]), .server SelectServer.Action.scan,
    .server SelectServer.Action.scan, .server SelectServer.Action.scan,
    .server SelectServer.Action.scan, .server (SelectServer.Action.recv 4096),
    .server SelectServer.Action.scan, .server (SelectServer.Action.select [4]),
    .server SelectServer.Action.scan, .server SelectServer.Action.scan,
    .server SelectServer.Action.scan, .server SelectServer.Action.scan,
    .server (SelectServer.Action.recv 4096)]

/-- At an epoll client of the epoll server, which reads the line before the client closes. -/
def toEpoll : List (System.LineNetwork.Action (server .epoll)) :=
  [.client 7 (.type keys), .client 7 .connect,
    .server (EpollServer.Action.epollWait [.listener]), .server EpollServer.Action.nextEvent,
    .server (EpollServer.Action.accept 5), .server EpollServer.Action.acceptEnds,
    .server EpollServer.Action.nextEvent, .client 7 (.epollWait [.stdin true, .stdin true]),
    .client 7 .nextEvent, .client 7 .getline, .client 7 (.send 2), .client 7 (.send 1),
    .server (EpollServer.Action.net (.deliver 7 3)),
    .server (EpollServer.Action.epollWait [.client 5]), .server EpollServer.Action.nextEvent,
    .server (EpollServer.Action.recv 4096), .client 7 .nextEvent, .client 7 .getline,
    .server (EpollServer.Action.net (.deliverFin 7)), .server (EpollServer.Action.recv 4096)]

/-- At a select client of the io_uring server. -/
def toIoUring : List (System.LineNetwork.Action (server (.ioUring 3))) :=
  [.client 7 (.type keys), .client 7 .connect,
    .server (IoUringServer.Action.queueAccept 100), .server IoUringServer.Action.submitAndWait,
    .server (IoUringServer.Action.complete 0 (.accepted 4)), .server IoUringServer.Action.peek,
    .server (IoUringServer.Action.queueRead 101), .server IoUringServer.Action.deleteRequest,
    .server (IoUringServer.Action.queueAccept 100), .server IoUringServer.Action.peekNone,
    .server IoUringServer.Action.submitAndWait, .client 7 .getline, .client 7 (.send 2),
    .client 7 (.send 1), .client 7 .getline, .server (IoUringServer.Action.net (.deliver 7 3)),
    .server (IoUringServer.Action.complete 0 (.received 3)), .server IoUringServer.Action.peek,
    .server IoUringServer.Action.requeue, .server IoUringServer.Action.peekNone,
    .server IoUringServer.Action.submitAndWait,
    .server (IoUringServer.Action.net (.deliverFin 7)),
    .server (IoUringServer.Action.complete 1 .ended), .server IoUringServer.Action.peek]

/-- The client has been closed with everything typed there written. -/
def AllWritten (k : ServerKind) (kinds : Nat → Kind)
    (actions : List (System.LineNetwork.Action (server k))) : Prop :=
  ∃ t trace, (System.LineNetwork.machine kinds).Run (System.LineNetwork.start (server k)) actions t
      trace ∧
    .closed 7 ∈ System.LineNetwork.network trace ∧
    output 7 (System.LineNetwork.network trace) = transcript (System.LineNetwork.typed 7 trace)

theorem typed_lines_written_each_server :
    AllWritten (.select 3) (fun _ => .select) toSelect ∧
      AllWritten .epoll (fun _ => .epoll) toEpoll ∧
      AllWritten (.ioUring 3) (fun _ => .select) toIoUring := by
  refine ⟨?_, ?_, ?_⟩
  · have run := (System.LineNetwork.machine fun _ => .select).run_of_isSome
      (System.LineNetwork.start (server (.select 3))) toSelect (by decide +kernel)
    have hclosed : .closed 7 ∈ System.LineNetwork.network
        (((System.LineNetwork.machine fun _ => Kind.select).exec
          (System.LineNetwork.start (server (.select 3))) toSelect).get (by decide +kernel)).2 := by
      decide +kernel
    exact ⟨_, _, run, hclosed,
      (typed_lines_written (.select 3) _ run (by decide +kernel) 7).2 hclosed (by decide +kernel)⟩
  · have run := (System.LineNetwork.machine fun _ => .epoll).run_of_isSome
      (System.LineNetwork.start (server .epoll)) toEpoll (by decide +kernel)
    have hclosed : .closed 7 ∈ System.LineNetwork.network
        (((System.LineNetwork.machine fun _ => Kind.epoll).exec
          (System.LineNetwork.start (server .epoll)) toEpoll).get (by decide +kernel)).2 := by
      decide +kernel
    exact ⟨_, _, run, hclosed,
      (typed_lines_written .epoll _ run (by decide +kernel) 7).2 hclosed (by decide +kernel)⟩
  · have run := (System.LineNetwork.machine fun _ => .select).run_of_isSome
      (System.LineNetwork.start (server (.ioUring 3))) toIoUring (by decide +kernel)
    have hclosed : .closed 7 ∈ System.LineNetwork.network
        (((System.LineNetwork.machine fun _ => Kind.select).exec
          (System.LineNetwork.start (server (.ioUring 3))) toIoUring).get (by decide +kernel)).2 := by
      decide +kernel
    exact ⟨_, _, run, hclosed,
      (typed_lines_written (.ioUring 3) _ run (by decide +kernel) 7).2 hclosed (by decide +kernel)⟩

end CppCodes.Guarantees.TypedLines
