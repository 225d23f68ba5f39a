import Mathlib.Data.List.Forall2
import CacheServer.Wire.Accounting

/-!
# The bytes of a response

What a connection sends is one complete response after the other, one for each
request in the order of the requests, with nothing in between; the responses that
report an error are followed by nothing.
-/

namespace CacheServer
open EntryHeader

/-- A response on the wire: its type alone, or a value behind its size. -/
inductive Response where
  | status (type : ResponseType)
  | value (value : List UInt8)
  deriving DecidableEq, Repr

namespace Response

def type : Response → ResponseType
  | status type => type
  | value _ => .value

def bytes : Response → List UInt8
  | status type => [type.toByte]
  | value v => ResponseType.value.toByte :: (ByteArea.encodeLE 4 v.length ++ v)

/-- The response is one that a request of its type is answered with. -/
def Answers (r : Response) (q : Request) : Prop :=
  match q.type with
  | .get => r = status .notFound ∨ ∃ v, v.length < 2 ^ 32 ∧ r = value v
  | .put | .delete => r = status .ok
  | .ping => r = status .pong

/-- The first response of a stream, and what follows it. -/
def read : List UInt8 → Option (Response × List UInt8)
  | [] => none
  | b :: bs =>
    match ResponseType.ofByte b with
    | none => none
    | some .value =>
      let size := ByteArea.decodeLE (bs.take 4)
      if bs.length < 4 + size then none
      else some (value ((bs.drop 4).take size), bs.drop (4 + size))
    | some type => some (status type, bs)

/-- The first `n` responses of a stream. -/
def readAll : Nat → List UInt8 → List Response × List UInt8
  | 0, bs => ([], bs)
  | n + 1, bs =>
    match read bs with
    | none => ([], bs)
    | some (r, rest) => (r :: (readAll n rest).1, (readAll n rest).2)

theorem read_bytes {r : Response} {q : Request} (h : r.Answers q) (rest : List UInt8) :
    read (r.bytes ++ rest) = some (r, rest) := by
  have hvalue : ∀ v : List UInt8, v.length < 2 ^ 32 →
      read ((value v).bytes ++ rest) = some (value v, rest) := by
    intro v hv
    have hsize : ByteArea.decodeLE (ByteArea.encodeLE 4 v.length) = v.length := by
      rw [ByteArea.decodeLE_encodeLE]
      exact Nat.mod_eq_of_lt hv
    have htake : (ByteArea.encodeLE 4 v.length ++ v ++ rest).take 4 = ByteArea.encodeLE 4 v.length := by
      rw [List.append_assoc]
      exact List.take_left' (ByteArea.encodeLE_length 4 v.length)
    have hdrop : (ByteArea.encodeLE 4 v.length ++ v ++ rest).drop 4 = v ++ rest := by
      rw [List.append_assoc]
      exact List.drop_left' (ByteArea.encodeLE_length 4 v.length)
    have hlength : ¬ (ByteArea.encodeLE 4 v.length ++ v ++ rest).length < 4 + v.length := by
      simp only [List.length_append, ByteArea.encodeLE_length]
      omega
    have hbyte : ResponseType.ofByte ResponseType.value.toByte = some .value := rfl
    simp only [bytes, List.cons_append, read, hbyte, htake, hsize, if_neg hlength, ← List.drop_drop,
      hdrop, List.take_left, List.drop_left]
  unfold Answers at h
  cases hq : q.type with
  | get =>
    rw [hq] at h
    rcases h with rfl | ⟨v, hv, rfl⟩
    · rfl
    · exact hvalue v hv
  | put | delete | ping =>
    rw [hq] at h
    obtain rfl : r = _ := h
    rfl

theorem readAll_flatMap {rs : List Response} (h : ∀ r ∈ rs, ∃ q, r.Answers q) (rest : List UInt8) :
    readAll rs.length (rs.flatMap bytes ++ rest) = (rs, rest) := by
  induction rs with
  | nil => rfl
  | cons r rs ih =>
    obtain ⟨q, hq⟩ := h r List.mem_cons_self
    have hrest := ih fun r hr => h r (List.mem_cons_of_mem _ hr)
    rw [List.flatMap_cons, List.append_assoc, List.length_cons, readAll, read_bytes hq]
    simp only [hrest]

/-- It answers the one request that was executed, or it is the last one. -/
def Concludes (r : Response) (pending : List Request) : Prop :=
  (∃ q, pending = [q] ∧ r.Answers q) ∨ r.type.endsConnection = true

end Response

/-- The value that follows a header with its size. -/
def announced {σ : Type} (w : World σ) (entryHeader : Option Pointer) : List UInt8 :=
  match entryHeader with
  | none => []
  | some p =>
    w.memory.read (p.add (entryHeaderSize + EntryHeader.keySize w.memory p)) (EntryHeader.valueSize w.memory p)

/-- What is still to be sent of the response under way. -/
def Connection.owes {σ : Type} (c : Connection) (w : World σ) : List UInt8 :=
  if c.state = .sendingHeader ∧ c.responseType = some .value then
    pendingBytes c w ++ announced w c.entryHeader
  else pendingBytes c w

/-- `sent` of the response under way has been sent, which is none before the request is
executed. -/
def RespondsAt {σ : Type} (c : Connection) (w : World σ) (pending : List Request)
    (sent : List UInt8) : Prop :=
  if c.state.sending then
    ∃ r : Response, c.responseType = some r.type ∧ sent ++ c.owes w = r.bytes ∧ r.Concludes pending
  else sent = [] ∧ (c.state = .awaitingReadUnblock → ∃ q, pending = [q] ∧ q.type = .get)

/-- The same of an outcome that is reached with `pending` and `sent`. -/
structure Outcome.Responds {σ : Type} (o : Outcome σ) (pending : List Request) (sent : List UInt8) :
    Prop where
  sends : o.events.flatMap Event.sentBytes = []
  responds : match o.result with
    | .newRequest => o.connection.state = .receivingHeader ∧ ∃ r : Response, sent = r.bytes ∧
        ∃ q, pending ++ o.events.flatMap Event.requests = [q] ∧ r.Answers q
    | .disconnect => ∃ r : Response, sent = r.bytes ∧
        r.Concludes (pending ++ o.events.flatMap Event.requests)
    | _ => RespondsAt o.connection o.world (pending ++ o.events.flatMap Event.requests) sent

section
variable {σ : Type} {S : Services σ} {c : Connection} {w : World σ} {pending : List Request}
  {sent : List UInt8}

theorem owes_sendHeader {t : ResponseType} (ht : t ≠ .value) : (sendHeader c t).owes w = [t.toByte] := by
  have htype : (sendHeader c t).responseType = some t := responseType_sendHeader c t
  unfold Connection.owes
  rw [if_neg fun h => ht (Option.some.inj (htype.symm.trans h.2))]
  simp [pendingBytes, sendHeader, responseHeaderSize, ByteArea.read, ByteArea.write]

theorem sendHeader_responds {t : ResponseType} (events : List Event) (ht : t ≠ .value)
    (hs : events.flatMap Event.sentBytes = [])
    (h : (Response.status t).Concludes (pending ++ events.flatMap Event.requests)) :
    (⟨.success, sendHeader c t, w, events⟩ : Outcome σ).Responds pending [] := by
  refine ⟨hs, ?_⟩
  change RespondsAt _ _ _ _
  unfold RespondsAt
  rw [if_pos (by rfl)]
  exact ⟨.status t, responseType_sendHeader c t, owes_sendHeader ht, h⟩

theorem silent_responds {c' : Connection} {w' : World σ} {result : ConnectionResult} (events : List Event)
    (hs : events.flatMap Event.sentBytes = []) (hc : c'.state.sending = false)
    (hr : result ≠ .newRequest ∧ result ≠ .disconnect) (hblocked : c'.state = .awaitingReadUnblock →
      ∃ q, pending ++ events.flatMap Event.requests = [q] ∧ q.type = .get) :
    (⟨result, c', w', events⟩ : Outcome σ).Responds pending [] := by
  have hat : RespondsAt c' w' (pending ++ events.flatMap Event.requests) [] := by
    unfold RespondsAt
    rw [if_neg (by simp [hc])]
    exact ⟨rfl, hblocked⟩
  refine ⟨hs, ?_⟩
  cases result with
  | newRequest => exact absurd rfl hr.1
  | disconnect => exact absurd rfl hr.2
  | success | noTransfer | readBlocked | writeBlocked => exact hat

theorem eventReceivedHeader_responds : (eventReceivedHeader c w).Responds [] [] := by
  unfold eventReceivedHeader
  split
  · exact sendHeader_responds [] (by decide) rfl (Or.inr rfl)
  · simp only
    split
    · exact sendHeader_responds _ (by decide) rfl (Or.inl ⟨_, rfl, rfl⟩)
    · exact silent_responds [] rfl rfl (by decide) (by simp)
    · exact silent_responds [] rfl rfl (by decide) (by simp)
    · exact silent_responds [] rfl rfl (by decide) (by simp)
    · exact sendHeader_responds [] (by decide) rfl (Or.inr rfl)

theorem attemptMemoryWrite_responds {o : Outcome σ} (h : attemptMemoryWrite S c w = .ok o) :
    o.Responds [] [] := by
  unfold attemptMemoryWrite at h
  split at h
  · cases h
  · cases h
    exact sendHeader_responds [] (by decide) rfl (Or.inr rfl)
  · cases h
    exact silent_responds [] rfl rfl (by decide) (by simp)
  · cases h
  · cases h
    exact silent_responds _ rfl rfl (by decide) (by simp)

theorem eventReceivedArguments_responds {o : Outcome σ} (h : eventReceivedArguments S c w = .ok o) :
    o.Responds [] [] := by
  unfold eventReceivedArguments at h
  split at h
  · split at h <;> cases h
    · exact sendHeader_responds [] (by decide) rfl (Or.inr rfl)
    · exact silent_responds _ rfl rfl (by decide) (by simp)
  · split at h <;> cases h
    · exact sendHeader_responds [] (by decide) rfl (Or.inr rfl)
    · exact silent_responds _ rfl rfl (by decide) (by simp)
  · exact attemptMemoryWrite_responds h
  · cases h

theorem announced_length (w : World σ) (p : Pointer) :
    (announced w (some p)).length = EntryHeader.valueSize w.memory p := by
  simp [announced, Memory.read]

/-- The header of a value carries the size of what is going to follow it. -/
theorem owes_value {p : Pointer} (hstate : c.state = .sendingHeader) (hbuffer : c.buffer = .header)
    (hindex : c.bufferIndex = 0) (hremaining : c.remainingBytes = aggregateResponseHeaderSize)
    (hentry : c.entryHeader = some p) (htype : c.responseType = some .value)
    (hbyte : c.header 0 = ResponseType.value.toByte)
    (hsize : c.header.read 1 4 = ByteArea.encodeLE 4 (EntryHeader.valueSize w.memory p)) :
    c.owes w = (Response.value (announced w (some p))).bytes := by
  have hheader : pendingBytes c w =
      ResponseType.value.toByte :: ByteArea.encodeLE 4 (EntryHeader.valueSize w.memory p) := by
    have hread : c.header.read 0 aggregateResponseHeaderSize = c.header 0 :: c.header.read 1 4 := rfl
    simp only [pendingBytes, hbuffer, hindex, hremaining]
    rw [hread, hbyte, hsize]
  unfold Connection.owes
  rw [if_pos ⟨hstate, htype⟩, hheader, hentry, Response.bytes, announced_length, List.cons_append]

theorem attemptMemoryRead_responds {q : Request} (hq : q.type = .get) :
    (attemptMemoryRead c w).Responds [q] [] := by
  unfold attemptMemoryRead
  split
  · have hanswer : (Response.status .notFound).Answers q := by
      rw [Response.Answers, hq]
      exact Or.inl rfl
    exact sendHeader_responds [] (by decide) rfl (Or.inl ⟨q, rfl, hanswer⟩)
  · rename_i p hp
    split
    · exact silent_responds [] rfl rfl (by decide) fun _ => ⟨q, rfl, hq⟩
    · rename_i memory hfree hacquire
      refine ⟨rfl, ?_⟩
      change RespondsAt _ _ [q] []
      unfold RespondsAt
      rw [if_pos (by rfl)]
      let size := EntryHeader.valueSize memory p
      let header := (c.header.write 0 [ResponseType.value.toByte]).storeLE 1 4 size
      have hbyte : header 0 = ResponseType.value.toByte := by
        have hstore := ByteArea.storeLE_outside (c.header.write 0 [ResponseType.value.toByte]) 1 4 size
          (a := 0) (Or.inl (by omega))
        exact hstore.trans (by simp [ByteArea.write])
      have hsize : header.read 1 4 = ByteArea.encodeLE 4 size := by
        have hwrite := ByteArea.read_write_same (c.header.write 0 [ResponseType.value.toByte]) 1
          (ByteArea.encodeLE 4 size)
        rwa [ByteArea.encodeLE_length] at hwrite
      have hanswer : (Response.value (announced { w with memory } (some p))).Answers q := by
        rw [Response.Answers, hq]
        have hlt := EntryHeader.valueSize_lt memory p
        exact Or.inr ⟨_, (announced_length _ _).trans_lt hlt, rfl⟩
      have htype : ResponseType.ofByte (header 0) = some .value := by
        rw [hbyte]
        rfl
      refine ⟨.value (announced { w with memory } (some p)), htype, ?_, Or.inl ⟨q, rfl, hanswer⟩⟩
      rw [List.nil_append]
      refine owes_value rfl rfl rfl rfl ?_ htype hbyte hsize
      exact hp

theorem Outcome.Responds.after {o : Outcome σ} {events : List Event}
    (h : o.Responds (pending ++ events.flatMap Event.requests) sent)
    (hs : events.flatMap Event.sentBytes = []) : (o.after events).Responds pending sent := by
  obtain ⟨sends, responds⟩ := h
  refine ⟨by simp [Outcome.after, hs, sends], ?_⟩
  simpa only [Outcome.after, List.flatMap_append, ← List.append_assoc] using responds

theorem eventReceivedBody_responds {o : Outcome σ} {t : RequestType} (ht : c.requestType = some t)
    (h : eventReceivedBody S c w = .ok o) : o.Responds [] [] := by
  unfold eventReceivedBody at h
  rw [ht] at h
  cases hp : c.entryHeader with
  | none => cases t <;> simp [hp] at h
  | some p =>
    rw [hp] at h
    cases t with
    | ping => cases h
    | get =>
      simp only at h
      split at h <;> cases h
      exact Outcome.Responds.after (attemptMemoryRead_responds rfl) rfl
    | delete =>
      simp only at h
      split at h <;> cases h
      exact sendHeader_responds _ (by decide) rfl (Or.inl ⟨_, rfl, rfl⟩)
    | put =>
      simp only at h
      split at h <;> cases h
      · exact sendHeader_responds _ (by decide) rfl (Or.inr rfl)
      · exact sendHeader_responds _ (by decide) rfl (Or.inl ⟨_, rfl, rfl⟩)

/-- A response that has been sent is the end of its request, or of the connection. -/
theorem finishRequest_responds {r : Response} (hsent : sent = r.bytes) (hr : r.Concludes pending)
    (hkeep : c.flags.keepAlive = true → r.type.endsConnection = false) :
    (finishRequest c w).Responds pending sent := by
  unfold finishRequest
  split
  · rename_i hk
    have hanswer : ∃ q, pending = [q] ∧ r.Answers q := hr.resolve_right (by simp [hkeep hk])
    exact ⟨rfl, rfl, r, hsent, by simpa using hanswer⟩
  · exact ⟨rfl, r, hsent, by simpa using hr⟩

/-- Every completed transfer goes on with the response that is due. -/
theorem connectionEvent_responds {o : Outcome σ} (hc : c.Valid) (hdone : c.remainingBytes = 0)
    (hpending : c.state.receiving = true → pending = []) (ha : RespondsAt c w pending sent)
    (h : connectionEvent S c w = .ok o) : o.Responds pending sent := by
  have hempty : pendingBytes c w = [] :=
    List.length_eq_zero_iff.mp ((pendingBytes_length c w).trans hdone)
  unfold RespondsAt at ha
  cases hc.phase with
  | receivingHeader state =>
    rw [state] at ha hpending
    obtain ⟨hsent, -⟩ : sent = [] ∧ _ := ha
    rw [hpending rfl, hsent]
    simp only [connectionEvent, state] at h
    cases h
    exact eventReceivedHeader_responds
  | receivingArguments state =>
    rw [state] at ha hpending
    obtain ⟨hsent, -⟩ : sent = [] ∧ _ := ha
    rw [hpending rfl, hsent]
    simp only [connectionEvent, state] at h
    exact eventReceivedArguments_responds h
  | receivingBody state buffer type =>
    rw [state] at ha hpending
    obtain ⟨hsent, -⟩ : sent = [] ∧ _ := ha
    rw [hpending rfl, hsent]
    simp only [connectionEvent, state] at h
    exact eventReceivedBody_responds type h
  | awaitingWriteUnblock state | awaitingReadUnblock state =>
    simp only [connectionEvent, state] at h
    cases h
  | @sendingHeader t state buffer type final window unlocked =>
    rw [if_pos (by rw [state]; rfl)] at ha
    obtain ⟨r, hr, howes, hconcludes⟩ := ha
    obtain rfl := Option.some.inj (type.symm.trans hr)
    have hsent : sent = r.bytes := by
      rw [← howes, Connection.owes, if_neg fun hv => final (Option.some.inj (type.symm.trans hv.2)), hempty,
        List.append_nil]
    simp only [connectionEvent, state, eventSentHeader_final type final] at h
    cases h
    refine finishRequest_responds hsent hconcludes fun hk => ?_
    cases he : r.type.endsConnection with
    | false => rfl
    | true => simp [he] at hk
  | @sendingValue p state buffer type window entry unallocated locked =>
    rw [if_pos (by rw [state]; rfl)] at ha
    obtain ⟨r, hr, howes, hconcludes⟩ := ha
    rw [Connection.owes, if_pos ⟨state, type⟩, hempty, List.nil_append] at howes
    simp only [connectionEvent, state, eventSentHeader_value type entry] at h
    cases h
    refine ⟨rfl, ?_⟩
    change RespondsAt _ _ (pending ++ []) sent
    rw [List.append_nil]
    unfold RespondsAt
    rw [if_pos (by rfl)]
    refine ⟨r, hr, ?_, hconcludes⟩
    rw [Connection.owes, if_neg (by simp), ← howes, entry]
    rfl
  | sendingBody state type entry unallocated locked =>
    rw [if_pos (by rw [state]; rfl)] at ha
    obtain ⟨r, hr, howes, hconcludes⟩ := ha
    have htype : r.type = .value := Option.some.inj (hr.symm.trans type)
    have hsent : sent = r.bytes := by
      rw [← howes, Connection.owes, if_neg (by simp [state]), hempty, List.append_nil]
    simp only [connectionEvent, state, eventSentBody_value type entry] at h
    cases h
    refine Outcome.Responds.after (finishRequest_responds hsent ?_ fun _ => ?_) rfl
    · simpa [Event.requests] using hconcludes
    · rw [htype]
      rfl

theorem RespondsAt.received (h : RespondsAt c w pending sent) (hr : c.state.receiving = true)
    (bytes : List UInt8) : RespondsAt (advance (storeReceived c w bytes).1 bytes.length)
      (storeReceived c w bytes).2 pending sent := by
  have hstate : (advance (storeReceived c w bytes).1 bytes.length).state = c.state :=
    storeReceived_state c w bytes
  have hsending : c.state.sending = false := by
    cases hs : c.state <;> simp_all [ConnectionState.receiving, ConnectionState.sending]
  unfold RespondsAt at h ⊢
  rw [hstate, if_neg (by simp [hsending])]
  rwa [if_neg (by simp [hsending])] at h

theorem pendingBytes_taken (c : Connection) (w : World σ) {bytes : List UInt8} {n : Nat}
    (h : bytes = (pendingBytes c w).take n) :
    pendingBytes c w = bytes ++ pendingBytes (advance c bytes.length) w := by
  unfold pendingBytes at h ⊢
  cases hb : c.buffer with
  | header | arguments =>
    rw [hb] at h
    simp only [advance, hb]
    exact ByteArea.read_of_take h
  | memory p =>
    rw [hb] at h
    simp only [advance, hb, Memory.read, Pointer.add, ← Nat.add_assoc] at h ⊢
    exact ByteArea.read_of_take h

theorem owes_sent (c : Connection) (w : World σ) {bytes : List UInt8} {n : Nat}
    (h : bytes = (pendingBytes c w).take n) :
    c.owes w = bytes ++ (advance c bytes.length).owes w := by
  have hsplit := pendingBytes_taken c w h
  by_cases hv : c.state = .sendingHeader ∧ c.responseType = some .value
  · have hadvanced : (advance c bytes.length).state = .sendingHeader ∧
        (advance c bytes.length).responseType = some .value := hv
    rw [Connection.owes, if_pos hv, hsplit, Connection.owes, if_pos hadvanced, List.append_assoc]
    rfl
  · have hadvanced : ¬ ((advance c bytes.length).state = .sendingHeader ∧
        (advance c bytes.length).responseType = some .value) := hv
    rw [Connection.owes, if_neg hv, hsplit, Connection.owes, if_neg hadvanced]

theorem RespondsAt.sends (h : RespondsAt c w pending sent) (hs : c.state.sending = true)
    {bytes : List UInt8} {n : Nat} (hb : bytes = (pendingBytes c w).take n) :
    RespondsAt (advance c bytes.length) w pending (sent ++ bytes) := by
  have hadvanced : (advance c bytes.length).state.sending = true := hs
  unfold RespondsAt at h ⊢
  rw [if_pos hs] at h
  rw [if_pos hadvanced]
  obtain ⟨r, hr, howes, hconcludes⟩ := h
  refine ⟨r, hr, ?_, hconcludes⟩
  rw [List.append_assoc, ← owes_sent c w hb]
  exact howes

/-- What has been sent of a response is the front part of it. -/
theorem RespondsAt.prefix_of (h : RespondsAt c w pending sent) :
    ∃ r : Response, sent <+: r.bytes ∧ (sent = [] ∨ r.Concludes pending) := by
  unfold RespondsAt at h
  split at h
  · obtain ⟨r, -, howes, hconcludes⟩ := h
    exact ⟨r, ⟨_, howes⟩, Or.inr hconcludes⟩
  · rw [h.1]
    exact ⟨.status .ok, List.nil_prefix, Or.inl rfl⟩

end

/-! ### Sessions -/

namespace Session
variable {σ : Type} {S : Services σ} {interlude : World σ → World σ}

/-- What has been sent for the request under way, by the status. -/
def Unfinished (s : Session σ) (sent : List UInt8) : Prop :=
  match s.status with
  | .running => RespondsAt s.connection s.world s.pending sent
  | .closed => ∃ r : Response, sent = r.bytes ∧ r.Concludes s.pending
  | .faulted _ => ∃ r : Response, sent <+: r.bytes ∧ (sent = [] ∨ r.Concludes s.pending)

theorem unfinished_of_running {s : Session σ} {sent : List UInt8} (hs : s.status = .running) :
    s.Unfinished sent ↔ RespondsAt s.connection s.world s.pending sent := by
  unfold Unfinished
  rw [hs]

/-- A finished request has been executed, and this is its answer. -/
def Answered (f : List Request × Nat) (r : Response) : Prop := ∃ q, f.1 = [q] ∧ r.Answers q

theorem answers_of_answered {fs : List (List Request × Nat)} {rs : List Response}
    (h : List.Forall₂ Answered fs rs) : ∀ r ∈ rs, ∃ q, r.Answers q := by
  induction h with
  | nil => exact fun r hr => absurd hr List.not_mem_nil
  | cons hfr rest ih =>
    obtain ⟨q, -, hq⟩ := hfr
    exact List.forall_mem_cons.mpr ⟨⟨q, hq⟩, ih⟩

theorem observe_received_pending (s : Session σ) (bytes : List UInt8) :
    (s.observe [.received bytes]).pending = s.pending := by
  simp [observe, Event.requests]

structure Responded (s : Session σ) (answers : List Response) (sent : List UInt8) : Prop where
  sends : s.sent = answers.flatMap Response.bytes ++ sent
  answers : List.Forall₂ Answered s.finished answers
  unfinished : s.Unfinished sent

theorem start_responded (fileDescriptor : Nat) (header arguments : ByteArea) (w : World σ)
    (input : List UInt8) :
    (start (connectionInit fileDescriptor header arguments) w input).Responded [] [] :=
  ⟨rfl, .nil, rfl, fun h => by cases h⟩

theorem settle_responded {s : Session σ} {o : Outcome σ} {answers : List Response}
    {sent : List UInt8} (hs : s.status = .running)
    (hsends : s.sent = answers.flatMap Response.bytes ++ sent)
    (hanswers : List.Forall₂ Answered s.finished answers) (ho : o.Responds s.pending sent) :
    ∃ answers sent,
      ((s.observe o.events).settle o.result o.connection o.world).Responded answers sent := by
  have hsent : (s.observe o.events).sent = answers.flatMap Response.bytes ++ sent := by
    simp only [observe, ho.sends, List.append_nil, hsends]
  have hresponds := ho.responds
  unfold settle
  cases hr : o.result with
  | newRequest =>
    rw [hr] at hresponds
    obtain ⟨hstate, r, rfl, q, hq, hanswer⟩ := hresponds
    refine ⟨answers ++ [r], [], ?_, ?_, ?_⟩
    · rw [List.append_nil, List.flatMap_append, List.flatMap_singleton]
      exact hsent
    · exact List.rel_append hanswers (.cons ⟨q, hq, hanswer⟩ .nil)
    · refine (unfinished_of_running ?_).mpr ?_
      · exact hs
      change RespondsAt o.connection o.world [] []
      unfold RespondsAt
      rw [hstate]
      exact ⟨rfl, fun h => by cases h⟩
  | disconnect =>
    rw [hr] at hresponds
    exact ⟨answers, sent, hsent, hanswers, hresponds⟩
  | success | noTransfer | readBlocked | writeBlocked =>
    rw [hr] at hresponds
    refine ⟨answers, sent, hsent, hanswers, (unfinished_of_running ?_).mpr hresponds⟩
    exact hs

theorem proceed_responded {s : Session σ} {c : Connection} {w : World σ} {answers : List Response}
    (sent : List UInt8) (hs : s.status = .running)
    (hsends : s.sent = answers.flatMap Response.bytes ++ sent)
    (hanswers : List.Forall₂ Answered s.finished answers) (hv : c.Valid)
    (hpending : c.state.receiving = true → s.pending = [])
    (ha : RespondsAt c w s.pending sent) : ∃ answers sent, (s.proceed S c w).Responded answers sent := by
  unfold proceed
  by_cases hr : c.remainingBytes ≠ 0
  · simp only [if_pos hr]
    refine ⟨answers, sent, hsends, hanswers, (unfinished_of_running ?_).mpr ha⟩
    exact hs
  · simp only [if_neg hr]
    cases he : connectionEvent S c w with
    | error fault => exact ⟨answers, sent, hsends, hanswers, ha.prefix_of⟩
    | ok o =>
      exact settle_responded (s := { s with connection := c, world := w }) hs hsends hanswers
        (connectionEvent_responds hv (by omega) hpending ha he)

theorem unblock_responded {s : Session σ} {r : Except Fault (Outcome σ)} {answers : List Response}
    {sent : List UInt8} (hs : s.status = .running)
    (hsends : s.sent = answers.flatMap Response.bytes ++ sent)
    (hanswers : List.Forall₂ Answered s.finished answers) (hsent : sent = [])
    (hr : ∀ o, r = .ok o → o.Responds s.pending []) :
    ∃ answers sent, (s.after (.error .assertion) r).Responded answers sent := by
  subst hsent
  cases r with
  | error fault => exact ⟨answers, [], hsends, hanswers, .status .ok, List.nil_prefix, Or.inl rfl⟩
  | ok o => exact settle_responded hs hsends hanswers (hr o rfl)

theorem unblockRead_responds {c : Connection} {w : World σ} {q : Request} {o : Outcome σ}
    (hq : q.type = .get) (h : connectionUnblockRead S c w = .ok o) : o.Responds [q] [] := by
  unfold connectionUnblockRead at h
  split at h
  · split at h
    · cases h
    · split at h <;> cases h
      · exact Outcome.Responds.after (attemptMemoryRead_responds hq) rfl
      · exact attemptMemoryRead_responds hq
  · cases h

theorem unblockWrite_responds {c : Connection} {w : World σ} {o : Outcome σ}
    (h : connectionUnblockWrite S c w = .ok o) : o.Responds [] [] := by
  unfold connectionUnblockWrite at h
  split at h
  · exact attemptMemoryWrite_responds h
  · cases h

theorem pending_of_receiving {s : Session σ} (h : CountedAt s.connection s.pending s.consumed)
    (hr : s.connection.state.receiving = true) : s.pending = [] := by
  unfold CountedAt at h
  cases hs : s.connection.state <;> simp_all [ConnectionState.receiving]

theorem step_responded {s : Session σ} {answers : List Response} {sent : List UInt8} (h : s.Sound)
    (hr : s.Responded answers sent) (n : Nat) :
    ∃ answers sent, (step S interlude n s).Responded answers sent := by
  by_cases hs : s.status = .running
  swap
  · rw [show step S interlude n s = s from if_pos hs]
    exact ⟨answers, sent, hr⟩
  obtain ⟨hv, hc⟩ := h.live hs
  have hat : RespondsAt s.connection s.world s.pending sent :=
    (unfinished_of_running hs).mp hr.unfinished
  cases hstate : s.connection.state with
  | awaitingReadUnblock =>
    simp only [step, hs, hstate, ne_eq, not_true_eq_false, if_false, if_true]
    unfold RespondsAt at hat
    rw [hstate] at hat
    obtain ⟨hsent, hblocked⟩ : sent = [] ∧ _ := hat
    obtain ⟨q, hpending, hq⟩ := hblocked rfl
    split
    · exact ⟨answers, sent, hr⟩
    · refine unblock_responded hs hr.sends hr.answers hsent fun o ho => ?_
      rw [hpending]
      exact unblockRead_responds hq ho
  | awaitingWriteUnblock =>
    simp only [step, hs, hstate, ne_eq, not_true_eq_false, if_false, if_true, reduceCtorEq]
    unfold RespondsAt at hat
    rw [hstate] at hat
    obtain ⟨hsent, -⟩ : sent = [] ∧ _ := hat
    simp only [CountedAt, hstate] at hc
    split
    · exact ⟨answers, sent, hr⟩
    · refine unblock_responded hs hr.sends hr.answers hsent fun o ho => ?_
      rw [hc.1]
      exact unblockWrite_responds ho
  | awaitingFinish =>
    cases hv.phase with
    | receivingHeader state | receivingArguments state | receivingBody state
    | awaitingWriteUnblock state | awaitingReadUnblock state | sendingHeader state
    | sendingValue state | sendingBody state =>
      rw [hstate] at state
      cases state
  | receivingHeader | receivingArguments | receivingBody =>
    have hreceiving : s.connection.state.receiving = true := by rw [hstate]; rfl
    rw [step_receiving S interlude hs hreceiving n rfl]
    split
    · exact ⟨answers, sent, hr⟩
    · refine proceed_responded sent hs ?_ hr.answers (received_valid hv hreceiving ?_) (fun _ => ?_) ?_
      · simpa [observe, Event.sentBytes] using hr.sends
      · exact List.length_take_le ..
      · simpa [observe, Event.requests] using pending_of_receiving hc hreceiving
      · rw [observe_received_pending]
        exact hat.received hreceiving _
  | sendingHeader | sendingBody =>
    have hsending : s.connection.state.sending = true := by rw [hstate]; rfl
    rw [step_sending S interlude hs hsending n rfl]
    split
    · exact ⟨answers, sent, hr⟩
    · have hnext := hat.sends hsending (n := n) rfl
      refine proceed_responded (sent ++ (pendingBytes s.connection s.world).take n) hs ?_
        hr.answers (sent_valid hv hsending ?_) (fun hreceiving => ?_) ?_
      · simp [observe, Event.sentBytes, hr.sends, List.append_assoc]
      · rw [List.length_take, pendingBytes_length]
        exact Nat.min_le_right ..
      · have hstill : s.connection.state.receiving = true := hreceiving
        rw [hstate] at hstill
        cases hstill
      · simpa [observe, Event.requests] using hnext

theorem run_responded {s : Session σ} {answers : List Response} {sent : List UInt8} (h : s.Sound)
    (hr : s.Responded answers sent) (chunks : List Nat) :
    ∃ answers sent, (run S interlude chunks s).Responded answers sent := by
  induction chunks generalizing s answers sent with
  | nil => exact ⟨answers, sent, hr⟩
  | cons n chunks ih =>
    obtain ⟨answers', sent', hr'⟩ := step_responded h hr n
    exact ih (step_sound h n) hr'

end Session

/-- However the transfers of a connection are split: what has been sent is, for each request after
which the connection was kept alive, one complete response that answers it, in the order of the
requests, and then the front part of at most one more; a connection is closed only behind a
complete one. -/
theorem responses_framed {σ : Type} (S : Services σ) (interlude : World σ → World σ)
    (fileDescriptor : Nat) (header arguments : ByteArea) (w : World σ) (input : List UInt8)
    (chunks : List Nat) :
    let s := (Session.start (connectionInit fileDescriptor header arguments) w input).run S interlude
      chunks
    let responses := Response.readAll s.finished.length s.sent
    List.Forall₂ (fun f r => ∃ q, f.1 = [q] ∧ r.Answers q) s.finished responses.1 ∧
      (∃ r : Response, responses.2 <+: r.bytes ∧ (responses.2 = [] ∨ r.Concludes s.pending)) ∧
      (s.status = .closed → ∃ r : Response, responses.2 = r.bytes ∧ r.Concludes s.pending) := by
  intro s responses
  have hsound := Session.start_sound fileDescriptor header arguments w input
  obtain ⟨answers, sent, hsends, hanswers, hunfinished⟩ : ∃ answers sent, s.Responded answers sent :=
    Session.run_responded hsound (Session.start_responded fileDescriptor header arguments w input) chunks
  have hread : responses = (answers, sent) := by
    change Response.readAll s.finished.length s.sent = _
    rw [hanswers.length_eq, hsends]
    exact Response.readAll_flatMap (Session.answers_of_answered hanswers) sent
  rw [hread]
  refine ⟨hanswers, ?_, fun hs => ?_⟩
  · unfold Session.Unfinished at hunfinished
    split at hunfinished
    · exact hunfinished.prefix_of
    · obtain ⟨r, rfl, hr⟩ := hunfinished
      exact ⟨r, List.prefix_rfl, Or.inr hr⟩
    · exact hunfinished
  · unfold Session.Unfinished at hunfinished
    rwa [hs] at hunfinished

end CacheServer
