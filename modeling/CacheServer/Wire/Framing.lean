import Mathlib.Logic.Function.Iterate
import CacheServer.Wire.Phases

/-!
# Framing and fragmentation

A session is a connection with the bytes its client sends and what has become of
them. Each step transfers a chunk of at most `n` bytes, or retries while the
connection is blocked; `interlude` is what the rest of the server has done to the
world before a retry. All outcomes of malloc, memory_queue_allocate and
entry_hash_map are functions of the world, so two sessions that start alike are
given the same outcomes, however their transfers are split.
-/

namespace CacheServer
open EntryHeader

namespace Request

/-- The bytes of a request on the wire. -/
def wireSize (r : Request) : Nat :=
  match r.type with
  | .ping => requestHeaderSize
  | .get | .delete => requestHeaderSize + keyArgumentsSize + r.key.length
  | .put => requestHeaderSize + keyValueArgumentsSize + r.key.length + r.value.length

def Fits (r : Request) : Prop := r.key.length + r.value.length + entryHeaderSize < 2 ^ 32

end Request

inductive Status where
  | running
  | closed
  | faulted (fault : Fault)
  deriving DecidableEq, Repr

/-- `finished` has, for each request after which the connection was kept alive, what was
executed for it and how many bytes it took; `pending` and `consumed` are those of the request
under way. -/
structure Session (σ : Type) where
  status : Status
  connection : Connection
  world : World σ
  input : List UInt8
  executed : List Request
  sent : List UInt8
  pending : List Request
  consumed : Nat
  finished : List (List Request × Nat)

def Event.requests : Event → List Request
  | .executed request => [request]
  | _ => []

def Event.receivedBytes : Event → List UInt8
  | .received bytes => bytes
  | _ => []

def Event.sentBytes : Event → List UInt8
  | .sent bytes => bytes
  | _ => []

namespace Session
variable {σ : Type} (S : Services σ) (interlude : World σ → World σ)

def start (c : Connection) (w : World σ) (input : List UInt8) : Session σ :=
  ⟨.running, c, w, input, [], [], [], 0, []⟩

def observe (s : Session σ) (events : List Event) : Session σ :=
  { s with
    input := s.input.drop (events.flatMap Event.receivedBytes).length
    executed := s.executed ++ events.flatMap Event.requests
    sent := s.sent ++ events.flatMap Event.sentBytes
    pending := s.pending ++ events.flatMap Event.requests
    consumed := s.consumed + (events.flatMap Event.receivedBytes).length }

def settle (s : Session σ) (result : ConnectionResult) (c : Connection) (w : World σ) : Session σ :=
  let s := { s with connection := c, world := w }
  match result with
  | .newRequest =>
    { s with pending := [], consumed := 0, finished := s.finished ++ [(s.pending, s.consumed)] }
  | .disconnect => { s with status := .closed }
  | _ => s

/-- After a call of connection.c; a call that faults leaves what it has transferred. -/
def after (s : Session σ) (transfer : Except Fault (Outcome σ)) :
    Except Fault (Outcome σ) → Session σ
  | .ok o => (s.observe o.events).settle o.result o.connection o.world
  | .error fault =>
    match transfer with
    | .ok o => { s.observe o.events with
        connection := o.connection, world := o.world, status := .faulted fault }
    | .error _ => { s with status := .faulted fault }

/-- One step: a transfer of at most `n` bytes, or a retry if the connection is blocked. With
`n = 0` the socket would block, or nobody wakes the connection. -/
def step (n : Nat) (s : Session σ) : Session σ :=
  let c := s.connection
  let socket : Socket := ⟨s.input.take n, false, n, false⟩
  if s.status ≠ .running then s
  else if c.state = .awaitingReadUnblock then
    if n = 0 then s
    else s.after (.error .assertion) (connectionUnblockRead S c (interlude s.world))
  else if c.state = .awaitingWriteUnblock then
    if n = 0 then s
    else s.after (.error .assertion) (connectionUnblockWrite S c (interlude s.world))
  else s.after (connectionTransfer S socket c s.world) (connectionProc S socket c s.world)

def run (chunks : List Nat) (s : Session σ) : Session σ :=
  chunks.foldl (fun s n => step S interlude n s) s

/-- Nothing more happens: no step changes the session. -/
def Settled (s : Session σ) : Prop := ∀ n, step S interlude n s = s

/-! ### A chunk is its bytes one by one -/

theorem observe_append (s : Session σ) (a b : List Event) :
    s.observe (a ++ b) = (s.observe a).observe b := by
  simp only [observe, List.flatMap_append, List.length_append, List.append_assoc, List.drop_drop,
    Nat.add_assoc]

@[simp] theorem observe_nil (s : Session σ) : s.observe [] = s := by
  simp [observe]

/- What follows a transfer of at least one byte. -/
def proceed (s : Session σ) (c : Connection) (w : World σ) : Session σ :=
  let s := { s with connection := c, world := w }
  if c.remainingBytes ≠ 0 then s
  else match connectionEvent S c w with
    | .ok o => (s.observe o.events).settle o.result o.connection o.world
    | .error fault => { s with status := .faulted fault }

theorem after_proc {s : Session σ} {socket : Socket} {c' : Connection} {w' : World σ}
    {events : List Event}
    (h : connectionTransfer S socket s.connection s.world = .ok ⟨.success, c', w', events⟩) :
    s.after (connectionTransfer S socket s.connection s.world)
      (connectionProc S socket s.connection s.world) = (s.observe events).proceed S c' w' := by
  rw [connectionProc_eq_of_transfer S socket _ _ h, h, if_neg (by simp), proceed]
  by_cases hr : c'.remainingBytes ≠ 0
  · rw [if_pos hr, if_pos hr]
    rfl
  · rw [if_neg hr, if_neg hr]
    cases connectionEvent S c' w' with
    | error fault => rfl
    | ok o =>
      simp only [Except.map, after, Outcome.after, observe_append]
      rfl

theorem after_idle {s : Session σ} {socket : Socket}
    (h : connectionTransfer S socket s.connection s.world = .ok ⟨.noTransfer, s.connection, s.world, []⟩) :
    s.after (connectionTransfer S socket s.connection s.world)
      (connectionProc S socket s.connection s.world) = s := by
  rw [connectionProc_eq_of_transfer S socket _ _ h, if_pos (by simp)]
  simp only [after, observe_nil]
  rfl

/- A session whose connection transfers, as opposed to one that is over or blocked. -/
structure Transferring (s : Session σ) : Prop where
  running : s.status = .running
  state : s.connection.state ≠ .awaitingReadUnblock ∧ s.connection.state ≠ .awaitingWriteUnblock

theorem Transferring.step {s : Session σ} (h : Transferring s) (n : Nat) :
    step S interlude n s =
      s.after (connectionTransfer S ⟨s.input.take n, false, n, false⟩ s.connection s.world)
        (connectionProc S ⟨s.input.take n, false, n, false⟩ s.connection s.world) := by
  rw [Session.step, if_neg (by simp [h.running]), if_neg h.state.1, if_neg h.state.2]

theorem transferring_of_receiving {s : Session σ} (hs : s.status = .running)
    (hr : s.connection.state.receiving = true) : Transferring s := by
  refine ⟨hs, ?_, ?_⟩ <;> intro h <;> rw [h] at hr <;> cases hr

theorem transferring_of_sending {s : Session σ} (hs : s.status = .running)
    (hr : s.connection.state.sending = true) : Transferring s := by
  refine ⟨hs, ?_, ?_⟩ <;> intro h <;> rw [h] at hr <;> cases hr

theorem step_receiving {s : Session σ} (hs : s.status = .running)
    (hr : s.connection.state.receiving = true) (n : Nat) {bytes : List UInt8}
    (hb : bytes = (s.input.take n).take s.connection.remainingBytes) :
    step S interlude n s =
      if bytes = [] then s
      else (s.observe [.received bytes]).proceed S
        (advance (storeReceived s.connection s.world bytes).1 bytes.length)
        (storeReceived s.connection s.world bytes).2 := by
  rw [(transferring_of_receiving hs hr).step]
  have ht := connectionTransfer_receiving S ⟨s.input.take n, false, n, false⟩ s.connection s.world hr
  rw [Socket.recv, if_neg (by simp)] at ht
  by_cases hne : bytes = []
  · rw [if_pos hne]
    refine after_idle S (ht.trans ?_)
    by_cases hz : s.connection.remainingBytes = 0
    · rw [if_pos hz]
    · rw [if_neg hz]
      have hnil : s.input.take n = [] := by
        rw [hne] at hb
        exact (List.take_eq_nil_iff.mp hb.symm).resolve_left hz
      rw [if_pos hnil]
      rfl
  · rw [if_neg hne]
    refine after_proc S (ht.trans ?_)
    have hz : s.connection.remainingBytes ≠ 0 := fun hz => hne (by rw [hb, hz, List.take_zero])
    have hnil : s.input.take n ≠ [] := fun hnil => hne (by rw [hb, hnil, List.take_nil])
    rw [if_neg hz, if_neg hnil, ← hb]
    cases bytes with
    | nil => exact absurd rfl hne
    | cons b bs => rfl

theorem step_sending {s : Session σ} (hs : s.status = .running)
    (hr : s.connection.state.sending = true) (n : Nat) {bytes : List UInt8}
    (hb : bytes = (pendingBytes s.connection s.world).take n) :
    step S interlude n s =
      if bytes = [] then s
      else (s.observe [.sent bytes]).proceed S (advance s.connection bytes.length) s.world := by
  rw [(transferring_of_sending hs hr).step]
  have ht := connectionTransfer_sending S ⟨s.input.take n, false, n, false⟩ s.connection s.world hr
  rw [Socket.send, if_neg (by simp)] at ht
  by_cases hne : bytes = []
  · rw [if_pos hne]
    refine after_idle S (ht.trans ?_)
    by_cases hz : pendingBytes s.connection s.world = []
    · rw [if_pos hz]
    · rw [if_neg hz]
      have hn : n = 0 := by
        rw [hne] at hb
        exact (List.take_eq_nil_iff.mp hb.symm).resolve_right hz
      rw [if_pos hn]
  · rw [if_neg hne]
    refine after_proc S (ht.trans ?_)
    have hz : pendingBytes s.connection s.world ≠ [] := fun hz => hne (by rw [hb, hz, List.take_nil])
    have hn : n ≠ 0 := fun hn => hne (by rw [hb, hn, List.take_zero])
    rw [if_neg hz, if_neg hn, ← hb]
    cases bytes with
    | nil => exact absurd rfl hne
    | cons b bs => rfl

/- Bytes stored at once are bytes stored one after the other. -/
theorem storeReceived_cons (c : Connection) (w : World σ) (b : UInt8) (bs : List UInt8) :
    advance (storeReceived c w (b :: bs)).1 (b :: bs).length =
        advance (storeReceived (advance (storeReceived c w [b]).1 1) (storeReceived c w [b]).2 bs).1
          bs.length ∧
      (storeReceived c w (b :: bs)).2 =
        (storeReceived (advance (storeReceived c w [b]).1 1) (storeReceived c w [b]).2 bs).2 := by
  have hsub : ∀ r : Nat, r - (bs.length + 1) = r - 1 - bs.length := fun r => by omega
  have hadd : ∀ i : Nat, i + (bs.length + 1) = i + 1 + bs.length := fun i => by omega
  cases hb : c.buffer with
  | header =>
    have hw := ByteArea.write_append c.header c.bufferIndex [b] bs
    simp only [List.singleton_append, List.length_singleton] at hw
    simp [storeReceived, advance, hb, hw, hsub, hadd]
  | arguments =>
    have hw := ByteArea.write_append c.arguments c.bufferIndex [b] bs
    simp only [List.singleton_append, List.length_singleton] at hw
    simp [storeReceived, advance, hb, hw, hsub, hadd]
  | memory p =>
    have hw := w.memory.write_append (p.add c.bufferIndex) [b] bs
    simp only [List.singleton_append, List.length_singleton, Pointer.add, Nat.add_assoc] at hw
    simp [storeReceived, advance, hb, hw, hsub, hadd, Pointer.add]

theorem proceed_more {s : Session σ} {c : Connection} {w : World σ} (h : c.remainingBytes ≠ 0) :
    s.proceed S c w = { s with connection := c, world := w } := if_pos h

/- Where a chunk goes on after its first byte, it is that byte and a chunk for the rest. -/
theorem step_receiving_succ {s : Session σ} (hs : s.status = .running)
    (hr : s.connection.state.receiving = true) (hmore : 2 ≤ s.connection.remainingBytes)
    (hin : s.input ≠ []) (n : Nat) :
    step S interlude (n + 1) s = step S interlude n (step S interlude 1 s) := by
  obtain ⟨b, rest, hinput⟩ := List.exists_cons_of_ne_nil hin
  obtain ⟨r, hrem⟩ : ∃ r, s.connection.remainingBytes = r + 1 := ⟨_, (Nat.succ_pred_eq_of_pos (by omega)).symm⟩
  have hone : [b] = (s.input.take 1).take s.connection.remainingBytes := by
    rw [hinput, hrem]
    simp
  have hmany : b :: (rest.take n).take r = (s.input.take (n + 1)).take s.connection.remainingBytes := by
    rw [hinput, hrem]
    rfl
  rw [step_receiving S interlude hs hr 1 hone, step_receiving S interlude hs hr (n + 1) hmany,
    if_neg (by simp), if_neg (by simp)]
  generalize hc₁ : advance (storeReceived s.connection s.world [b]).1 [b].length = c₁
  generalize hw₁ : (storeReceived s.connection s.world [b]).2 = w₁
  have hstate : c₁.state = s.connection.state := by
    rw [← hc₁, ← storeReceived_state s.connection s.world [b]]
    rfl
  have hleft : c₁.remainingBytes = r := by
    rw [← hc₁]
    simp only [advance, storeReceived_remainingBytes, hrem, List.length_singleton]
    omega
  have hfirst := proceed_more (s := s.observe [.received [b]]) (S := S) (w := w₁)
    (show c₁.remainingBytes ≠ 0 by omega)
  rw [hfirst]
  have hrest : (rest.take n).take r = (((s.observe [.received [b]]).input).take n).take c₁.remainingBytes := by
    simp only [observe, hinput, hleft]
    rfl
  rw [step_receiving S interlude (s := { s.observe [.received [b]] with connection := c₁, world := w₁ })
    hs (by rw [← hr]; exact congrArg _ hstate) n hrest]
  by_cases hnil : (rest.take n).take r = []
  · rw [if_pos hnil, hnil, hc₁, hw₁, hfirst]
  · rw [if_neg hnil]
    obtain ⟨hconnection, hworld⟩ := storeReceived_cons s.connection s.world b ((rest.take n).take r)
    rw [List.length_singleton] at hc₁
    rw [hconnection, hworld, hc₁, hw₁]
    have hobserve : s.observe [.received (b :: (rest.take n).take r)] =
        (s.observe [.received [b]]).observe [.received ((rest.take n).take r)] := by
      simp [observe, Event.receivedBytes, Event.requests, Event.sentBytes]
      omega
    rw [hobserve]
    rfl

theorem pendingBytes_advance (c : Connection) (w : World σ) {b : UInt8} {bs : List UInt8}
    (h : pendingBytes c w = b :: bs) : pendingBytes (advance c 1) w = bs := by
  have hrem : c.remainingBytes = bs.length + 1 := by
    rw [← pendingBytes_length c w, h]
    rfl
  have htail : ∀ (m : ByteArea) (p : Nat), m.read p (bs.length + 1) = b :: bs →
      m.read (p + 1) bs.length = bs := fun m p hp => (List.cons.inj hp).2
  cases hb : c.buffer with
  | header =>
    simp only [pendingBytes, hb, hrem] at h
    simp only [pendingBytes, advance, hb, hrem, Nat.add_sub_cancel]
    exact htail _ _ h
  | arguments =>
    simp only [pendingBytes, hb, hrem] at h
    simp only [pendingBytes, advance, hb, hrem, Nat.add_sub_cancel]
    exact htail _ _ h
  | memory p =>
    simp only [pendingBytes, hb, hrem] at h
    simp only [pendingBytes, advance, hb, hrem, Nat.add_sub_cancel]
    exact htail _ _ h

theorem step_sending_succ {s : Session σ} (hs : s.status = .running)
    (hr : s.connection.state.sending = true) (hmore : 2 ≤ s.connection.remainingBytes) (n : Nat) :
    step S interlude (n + 1) s = step S interlude n (step S interlude 1 s) := by
  have hlen := pendingBytes_length s.connection s.world
  obtain ⟨b, rest, hpending⟩ : ∃ b rest, pendingBytes s.connection s.world = b :: rest :=
    List.exists_cons_of_ne_nil fun hnil => by
      rw [hnil, List.length_nil] at hlen
      omega
  have hone : [b] = (pendingBytes s.connection s.world).take 1 := by
    rw [hpending]
    simp
  have hmany : b :: rest.take n = (pendingBytes s.connection s.world).take (n + 1) := by
    rw [hpending]
    rfl
  have hfirst := proceed_more (s := s.observe [.sent [b]]) (S := S) (w := s.world)
    (c := advance s.connection 1) (by simp only [advance]; omega)
  rw [step_sending S interlude hs hr 1 hone, step_sending S interlude hs hr (n + 1) hmany,
    if_neg (by simp), if_neg (by simp), List.length_singleton, hfirst]
  have hrest : rest.take n = (pendingBytes (advance s.connection 1) s.world).take n := by
    rw [pendingBytes_advance s.connection s.world hpending]
  rw [step_sending S interlude
    (s := { s.observe [.sent [b]] with connection := advance s.connection 1, world := s.world })
    hs hr n hrest]
  by_cases hnil : rest.take n = []
  · rw [if_pos hnil, hnil]
    exact hfirst
  · rw [if_neg hnil]
    have hconnection : advance s.connection (b :: rest.take n).length =
        advance (advance s.connection 1) (rest.take n).length := by
      simp only [advance, List.length_cons, Nat.sub_sub, Nat.add_assoc, Nat.add_comm 1]
    have hobserve : s.observe [.sent (b :: rest.take n)] =
        (s.observe [.sent [b]]).observe [.sent (rest.take n)] := by
      simp [observe, Event.receivedBytes, Event.requests, Event.sentBytes]
    rw [hobserve, hconnection]
    rfl

/- The last byte of a transfer ends it, whatever the chunk. -/
theorem step_receiving_last {s : Session σ} (hs : s.status = .running)
    (hr : s.connection.state.receiving = true) (h1 : s.connection.remainingBytes = 1) (n : Nat) :
    step S interlude (n + 1) s = step S interlude 1 s := by
  have hsame : (s.input.take (n + 1)).take s.connection.remainingBytes =
      (s.input.take 1).take s.connection.remainingBytes := by
    simp [h1, List.take_take]
  rw [step_receiving S interlude hs hr (n + 1) rfl, step_receiving S interlude hs hr 1 rfl, hsame]

theorem step_sending_last {s : Session σ} (hs : s.status = .running)
    (hr : s.connection.state.sending = true) (h1 : s.connection.remainingBytes ≤ 1) (n : Nat) :
    step S interlude (n + 1) s = step S interlude 1 s := by
  have hlen := pendingBytes_length s.connection s.world
  have hsame : (pendingBytes s.connection s.world).take (n + 1) =
      (pendingBytes s.connection s.world).take 1 := by
    rw [List.take_of_length_le (by omega), List.take_of_length_le (by omega)]
  rw [step_sending S interlude hs hr (n + 1) rfl, step_sending S interlude hs hr 1 rfl, hsame]

/- No byte is transferred where none is asked for, none is there, or none is to be had. -/
theorem step_receiving_idle {s : Session σ} (hs : s.status = .running)
    (hr : s.connection.state.receiving = true) {n : Nat}
    (h : n = 0 ∨ s.input = [] ∨ s.connection.remainingBytes = 0) : step S interlude n s = s := by
  refine (step_receiving S interlude hs hr n rfl).trans (if_pos ?_)
  rcases h with h | h | h <;> simp [h]

/-- Every step is some number of steps of one byte. -/
theorem step_eq_iterate (n : Nat) (s : Session σ) :
    ∃ k, step S interlude n s = (step S interlude 1)^[k] s := by
  induction n generalizing s with
  | zero =>
    by_cases hs : s.status = .running
    swap
    · exact ⟨0, if_pos hs⟩
    cases hstate : s.connection.state with
    | awaitingReadUnblock | awaitingWriteUnblock => exact ⟨0, by simp [step, hs, hstate]⟩
    | awaitingFinish =>
      exact ⟨1, by simp [step, hs, hstate, connectionProc, connectionTransfer, after]⟩
    | receivingHeader | receivingArguments | receivingBody =>
      exact ⟨0, step_receiving_idle S interlude hs (by rw [hstate]; rfl) (Or.inl rfl)⟩
    | sendingHeader | sendingBody =>
      exact ⟨0, (step_sending S interlude hs (by rw [hstate]; rfl) 0 rfl).trans (if_pos (by simp))⟩
  | succ n ih =>
    have hchain : step S interlude (n + 1) s = step S interlude n (step S interlude 1 s) →
        ∃ k, step S interlude (n + 1) s = (step S interlude 1)^[k] s := by
      intro hsplit
      obtain ⟨k, hk⟩ := ih (step S interlude 1 s)
      exact ⟨k + 1, by rw [hsplit, hk, Function.iterate_succ_apply]⟩
    by_cases hs : s.status = .running
    swap
    · exact ⟨0, if_pos hs⟩
    cases hstate : s.connection.state with
    | awaitingReadUnblock | awaitingWriteUnblock => exact ⟨1, by simp [step, hs, hstate]⟩
    | awaitingFinish =>
      exact ⟨1, by simp [step, hs, hstate, connectionProc, connectionTransfer, after]⟩
    | receivingHeader | receivingArguments | receivingBody =>
      have hr : s.connection.state.receiving = true := by rw [hstate]; rfl
      by_cases hidle : s.input = [] ∨ s.connection.remainingBytes = 0
      · exact ⟨0, step_receiving_idle S interlude hs hr (Or.inr hidle)⟩
      by_cases h1 : s.connection.remainingBytes = 1
      · exact ⟨1, step_receiving_last S interlude hs hr h1 n⟩
      · push Not at hidle
        exact hchain (step_receiving_succ S interlude hs hr (by omega) hidle.1 n)
    | sendingHeader | sendingBody =>
      have hr : s.connection.state.sending = true := by rw [hstate]; rfl
      by_cases h1 : s.connection.remainingBytes ≤ 1
      · exact ⟨1, step_sending_last S interlude hs hr h1 n⟩
      · exact hchain (step_sending_succ S interlude hs hr (by omega) n)

theorem run_eq_iterate (chunks : List Nat) (s : Session σ) :
    ∃ k, run S interlude chunks s = (step S interlude 1)^[k] s := by
  induction chunks generalizing s with
  | nil => exact ⟨0, rfl⟩
  | cons n chunks ih =>
    obtain ⟨i, hi⟩ := step_eq_iterate S interlude n s
    obtain ⟨j, hj⟩ := ih (step S interlude n s)
    refine ⟨j + i, ?_⟩
    rw [Function.iterate_add_apply, ← hi]
    exact hj

/-! ### Two ways of splitting the transfers -/

theorem after_prefix (s : Session σ) (transfer result : Except Fault (Outcome σ)) :
    s.executed <+: (s.after transfer result).executed ∧ s.sent <+: (s.after transfer result).sent := by
  cases result with
  | ok o =>
    have hsettle : ((s.observe o.events).settle o.result o.connection o.world).executed =
        (s.observe o.events).executed ∧
        ((s.observe o.events).settle o.result o.connection o.world).sent = (s.observe o.events).sent := by
      unfold settle
      cases o.result <;> exact ⟨rfl, rfl⟩
    rw [after, hsettle.1, hsettle.2]
    exact ⟨List.prefix_append .., List.prefix_append ..⟩
  | error fault =>
    cases transfer with
    | ok o => exact ⟨List.prefix_append .., List.prefix_append ..⟩
    | error _ => exact ⟨List.prefix_refl _, List.prefix_refl _⟩

theorem step_prefix (n : Nat) (s : Session σ) :
    s.executed <+: (step S interlude n s).executed ∧ s.sent <+: (step S interlude n s).sent := by
  have hrefl : s.executed <+: s.executed ∧ s.sent <+: s.sent := ⟨List.prefix_refl _, List.prefix_refl _⟩
  simp only [step]
  split
  · exact hrefl
  · split
    · split
      · exact hrefl
      · exact after_prefix ..
    · split
      · split
        · exact hrefl
        · exact after_prefix ..
      · exact after_prefix ..

theorem iterate_prefix (k : Nat) (s : Session σ) :
    s.executed <+: ((step S interlude 1)^[k] s).executed ∧
      s.sent <+: ((step S interlude 1)^[k] s).sent := by
  induction k generalizing s with
  | zero => exact ⟨List.prefix_refl _, List.prefix_refl _⟩
  | succ k ih =>
    rw [Function.iterate_succ_apply]
    have hone := step_prefix S interlude 1 s
    have hrest := ih (step S interlude 1 s)
    exact ⟨hone.1.trans hrest.1, hone.2.trans hrest.2⟩

/- Of two runs of one session, one goes on where the other stands. -/
theorem run_comparable (chunks₁ chunks₂ : List Nat) (s : Session σ) :
    (∃ k, run S interlude chunks₂ s = (step S interlude 1)^[k] (run S interlude chunks₁ s)) ∨
      ∃ k, run S interlude chunks₁ s = (step S interlude 1)^[k] (run S interlude chunks₂ s) := by
  obtain ⟨i, hi⟩ := run_eq_iterate S interlude chunks₁ s
  obtain ⟨j, hj⟩ := run_eq_iterate S interlude chunks₂ s
  rcases Nat.le_total i j with h | h
  · obtain ⟨d, rfl⟩ := Nat.exists_eq_add_of_le' h
    exact Or.inl ⟨d, by rw [hi, hj, Function.iterate_add_apply]⟩
  · obtain ⟨d, rfl⟩ := Nat.exists_eq_add_of_le' h
    exact Or.inr ⟨d, by rw [hi, hj, Function.iterate_add_apply]⟩

theorem Settled.iterate {s : Session σ} (h : Settled S interlude s) (k : Nat) :
    (step S interlude 1)^[k] s = s :=
  Function.iterate_fixed (h 1) k

end Session

end CacheServer
