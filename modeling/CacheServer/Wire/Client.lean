import CacheServer.Model.CacheClient
import CacheServer.Model.Server
import CacheServer.Wire.Framing

/-!
# Client and server

Both ends take the protocol from cache_protocol.h. The server reads what the
client packs, and the client unpacks what the server sends, as long as the
transport does not split what the client sends or receives in one call.
-/

namespace CacheServer
open EntryHeader ByteArea CacheClient

/-! ### Packing -/

theorem pack_length {format : List PackType} {values : List Nat} {bytes : List UInt8}
    (h : pack format values = .ok bytes) : bytes.length = structSize format := by
  induction format generalizing values bytes with
  | nil =>
    cases values with
    | nil =>
      cases h
      rfl
    | cons v vs => cases h
  | cons type format ih =>
    cases values with
    | nil => cases h
    | cons v vs =>
      rw [pack] at h
      split at h
      · cases hrest : pack format vs with
        | error error =>
          rw [hrest] at h
          cases h
        | ok rest =>
          rw [hrest] at h
          cases h
          have hlen := ih hrest
          simp only [List.length_append, encodeLE_length, hlen, structSize, List.map_cons,
            List.sum_cons]
      · cases h

/-- What was packed is unpacked. -/
theorem unpack_pack {format : List PackType} {values : List Nat} {bytes : List UInt8}
    (h : pack format values = .ok bytes) : unpack format bytes = .ok values := by
  rw [unpack, if_pos (pack_length h)]
  congr 1
  induction format generalizing values bytes with
  | nil =>
    cases values with
    | nil => rfl
    | cons v vs => cases h
  | cons type format ih =>
    cases values with
    | nil => cases h
    | cons v vs =>
      rw [pack] at h
      split at h
      · rename_i hv
        cases hrest : pack format vs with
        | error error =>
          rw [hrest] at h
          cases h
        | ok rest =>
          rw [hrest] at h
          cases h
          have hlen := encodeLE_length type.size v
          rw [unpackFields, List.take_left' hlen, List.drop_left' hlen, decodeLE_encodeLE,
            Nat.mod_eq_of_lt hv, ih hrest]
      · cases h

section
variable {key value : List UInt8}

theorem header_eq (type : RequestType) :
    header type = .ok [1, 0, 1, UInt8.ofNat type.value] := by
  cases type <;> rfl

theorem keyRequest_eq (type : RequestType) (hk : key.length < 2 ^ 16) :
    keyRequest type key =
      .ok ([1, 0, 1, UInt8.ofNat type.value] ++ encodeLE 2 key.length ++ key) := by
  have hsize : key.length < 65536 := hk
  have harguments : pack keyArguments [key.length] = .ok (encodeLE 2 key.length) := by
    simp [pack, keyArguments, PackType.size, Except.map, hsize]
  rw [keyRequest, header_eq, harguments]
  rfl

theorem putRequest_eq (hk : key.length < 2 ^ 16) (hv : value.length < 2 ^ 32) :
    putRequest key value =
      .ok ([1, 0, 1, 2] ++ (encodeLE 2 key.length ++ encodeLE 4 value.length) ++ key ++ value) := by
  have hsize : key.length < 65536 := hk
  have hsize' : value.length < 4294967296 := hv
  have harguments : pack keyValueArguments [key.length, value.length] =
      .ok (encodeLE 2 key.length ++ encodeLE 4 value.length) := by
    simp [pack, keyValueArguments, PackType.size, Except.map, hsize, hsize']
  rw [putRequest, header_eq, harguments]
  rfl

end

/-! ### What the server reads -/

/-- The connection after a transfer of `bytes`. -/
def Connection.received (c : Connection) (w : World System) (bytes : List UInt8) : Connection :=
  advance (storeReceived c w bytes).1 bytes.length

/-- The server takes `bytes` at the start of a request for the request `r`. -/
structure ReadAs (r : Request) (bytes : List UInt8) (c : Connection) (w : World System)
    (c₁ c₂ : Connection) : Prop where
  header : c₁ = (eventReceivedHeader
    ((initRequest c).received w (bytes.take requestHeaderSize)) w).connection
  arguments : c₂ = c₁.received w ((bytes.drop requestHeaderSize).take (argumentsSize r.type))
  receives : c₁.state = .receivingArguments ∧ c₁.remainingBytes = argumentsSize r.type
  complete : c₂.remainingBytes = 0
  type : c₂.requestType = some r.type
  kept : c₂.flags.keepAlive = true
  keySize : c₂.keySize = r.key.length
  valueSize : r.type = .put → c₂.valueSize = r.value.length
  body : bytes.drop (requestHeaderSize + argumentsSize r.type) = r.key ++ r.value
  bodySize : bodySize c₂ r.type = (r.key ++ r.value).length

def ServerReads (r : Request) (bytes : List UInt8) : Prop :=
  ∀ c w, ∃ c₁ c₂, ReadAs r bytes c w c₁ c₂

section
variable {key value : List UInt8}

/- The header of every request with arguments. -/
theorem received_header (c : Connection) (w : World System) {type : RequestType}
    (ht : type ≠ .ping) : ∃ area : ByteArea,
      (eventReceivedHeader
        ((initRequest c).received w [1, 0, 1, UInt8.ofNat type.value]) w).connection =
          { initRequest c with
            header := area
            flags := ⟨true, false, false⟩
            buffer := .arguments
            remainingBytes := argumentsSize type
            state := .receivingArguments } ∧
        RequestType.ofByte (area 3) = some type := by
  cases type with
  | ping => exact absurd rfl ht
  | get | delete | put => exact ⟨_, rfl, rfl⟩

theorem front_split {front arguments : List UInt8} {n m : Nat} (hn : front.length = n)
    (hm : arguments.length = m) (body : List UInt8) : (front ++ arguments ++ body).take n = front ∧
      ((front ++ arguments ++ body).drop n).take m = arguments ∧
      (front ++ arguments ++ body).drop (n + m) = body := by
  rw [← List.drop_drop, List.append_assoc, List.drop_left' hn]
  exact ⟨List.take_left' hn, List.take_left' hm, List.drop_left' hm⟩

theorem serverReads_of {r : Request} {arguments : List UInt8} (ht : r.type ≠ .ping)
    (hvalue : r.type ≠ .put → r.value = []) (hfits : r.Fits)
    (hlen : arguments.length = argumentsSize r.type)
    (hkey : ∀ m : ByteArea, (m.write 0 arguments).loadLE 0 2 = r.key.length)
    (hput : r.type = .put → ∀ m : ByteArea, (m.write 0 arguments).loadLE 2 4 = r.value.length) :
    ServerReads r
      ([1, 0, 1, UInt8.ofNat r.type.value] ++ arguments ++ (r.key ++ r.value)) := by
  intro c w
  obtain ⟨area, hheader, htype⟩ := received_header c w ht
  have hfour : [1, 0, 1, UInt8.ofNat r.type.value].length = requestHeaderSize := rfl
  obtain ⟨hfront, harguments, hbody⟩ := front_split hfour hlen (r.key ++ r.value)
  refine ⟨_, _, ⟨rfl, rfl, ?_, ?_, ?_, ?_, ?_, ?_, hbody, ?_⟩⟩
  all_goals rw [hfront, hheader]
  · exact ⟨rfl, rfl⟩
  all_goals rw [harguments]
  · show argumentsSize r.type - arguments.length = 0
    omega
  · exact htype
  · rfl
  · exact hkey _
  · exact fun hp => hput hp _
  · rw [List.length_append]
    by_cases hp : r.type = .put
    · rw [hp]
      show (((initRequest c).arguments.write 0 arguments).loadLE 0 2 +
        ((initRequest c).arguments.write 0 arguments).loadLE 2 4) % 2 ^ 32 = _
      rw [hkey, hput hp]
      unfold Request.Fits entryHeaderSize at hfits
      exact Nat.mod_eq_of_lt (by omega)
    · have hsame : ∀ c' : Connection, bodySize c' r.type = c'.keySize := by
        intro c'
        cases htr : r.type with
        | put => exact absurd htr hp
        | ping => exact absurd htr ht
        | get | delete => rfl
      rw [hsame, hvalue hp]
      exact hkey _

theorem keyRequest_read {type : RequestType} (ht : type = .get ∨ type = .delete)
    (hk : key.length < 2 ^ 16) : ∃ bytes, keyRequest type key = .ok bytes ∧
      bytes.length = Request.wireSize ⟨type, key, []⟩ ∧ ServerReads ⟨type, key, []⟩ bytes := by
  have hfits : Request.Fits ⟨type, key, []⟩ := by
    simp only [Request.Fits, List.length_nil, entryHeaderSize]
    omega
  have hload : ∀ m : ByteArea, (m.write 0 (encodeLE 2 key.length)).loadLE 0 2 = key.length :=
    fun m => (loadLE_storeLE_same m 0 2 key.length).trans (Nat.mod_eq_of_lt hk)
  have hreads := @serverReads_of ⟨type, key, []⟩ (encodeLE 2 key.length)
    (by rcases ht with rfl | rfl <;> intro hp <;> cases hp) (fun _ => rfl) hfits
    (by rcases ht with rfl | rfl <;> exact encodeLE_length ..) hload
    (by rcases ht with rfl | rfl <;> intro hp <;> cases hp)
  rw [List.append_nil] at hreads
  refine ⟨_, keyRequest_eq type hk, ?_, hreads⟩
  simp only [List.length_append, encodeLE_length, Request.wireSize]
  rcases ht with rfl | rfl <;> rfl

theorem putRequest_read (hk : key.length < 2 ^ 16) (hv : value.length < 2 ^ 32 - 65552) :
    ∃ bytes, putRequest key value = .ok bytes ∧
      bytes.length = Request.wireSize ⟨.put, key, value⟩ ∧
      ServerReads ⟨.put, key, value⟩ bytes := by
  have hfits : Request.Fits ⟨.put, key, value⟩ := by
    simp only [Request.Fits, entryHeaderSize]
    omega
  have hstore : ∀ m : ByteArea, m.write 0 (encodeLE 2 key.length ++ encodeLE 4 value.length) =
      (m.storeLE 0 2 key.length).storeLE 2 4 value.length := by
    intro m
    rw [write_append, encodeLE_length]
    rfl
  have hreads := @serverReads_of ⟨.put, key, value⟩ (encodeLE 2 key.length ++ encodeLE 4 value.length)
    (fun hp => by cases hp) (fun hp => absurd rfl hp) hfits
    (by rw [List.length_append, encodeLE_length, encodeLE_length]; rfl)
    (fun m => by
      rw [hstore, loadLE_storeLE_disjoint _ _ _ _ _ _ (by omega), loadLE_storeLE_same]
      exact Nat.mod_eq_of_lt hk)
    (fun _ m => by
      rw [hstore, loadLE_storeLE_same]
      exact Nat.mod_eq_of_lt (by omega))
  rw [← List.append_assoc] at hreads
  refine ⟨_, putRequest_eq hk (by omega), ?_, hreads⟩
  simp only [List.length_append, encodeLE_length, Request.wireSize]
  rfl

end

/-! ### What the server sends -/

/-- The bytes of the answer to a GET that has found an entry, header and body. -/
def valueAnswer (c : Connection) (w : World System) : Except Fault (List UInt8) :=
  let o := attemptMemoryRead c w
  (eventSentHeader (advance o.connection o.connection.remainingBytes) o.world).map fun o' =>
    pendingBytes o.connection o.world ++ pendingBytes o'.connection o'.world

section
variable {c : Connection} {w : World System} {p : Pointer}

theorem value_length (m : Memory) (p : Pointer) : (value m p).length = valueSize m p :=
  ByteArea.read_length ..

/- The lock count lies between the sizes and the key. -/
theorem value_setLocks (m : Memory) (p : Pointer) (n : Nat) :
    keySize (setLocks m p n) p = keySize m p ∧ valueSize (setLocks m p n) p = valueSize m p ∧
      value (setLocks m p n) p = value m p := by
  have hkey : keySize (setLocks m p n) p = keySize m p :=
    load_store_other m p 14 2 n 12 2 (by omega)
  have hvalue : valueSize (setLocks m p n) p = valueSize m p :=
    load_store_other m p 14 2 n 8 4 (by omega)
  refine ⟨hkey, hvalue, ?_⟩
  rw [value, value, hkey, hvalue]
  refine Memory.read_congr fun a h1 _ => store_outside m p 14 2 n (Or.inr (Or.inr ?_))
  change p.offset + (16 + keySize m p) ≤ a at h1
  omega

theorem read_valueHeader (m : ByteArea) (n : Nat) :
    ((m.write 0 [ResponseType.value.toByte]).storeLE 1 4 n).read 0 aggregateResponseHeaderSize =
      ResponseType.value.toByte :: encodeLE 4 n := by
  have hbytes : (m.write 0 [ResponseType.value.toByte]).storeLE 1 4 n =
      m.write 0 (ResponseType.value.toByte :: encodeLE 4 n) :=
    (write_append m 0 [ResponseType.value.toByte] (encodeLE 4 n)).symm
  rw [hbytes]
  exact read_write_same m 0 (ResponseType.value.toByte :: encodeLE 4 n)

theorem valueAnswer_eq (hp : c.entryHeader = some p)
    (hl : locks w.memory p ≠ entryHeaderLockCapacity) :
    valueAnswer c w = .ok (ResponseType.value.toByte ::
      (encodeLE 4 (value w.memory p).length ++ value w.memory p)) := by
  obtain ⟨hkey, hsize, hvalue⟩ := value_setLocks w.memory p (locks w.memory p + 1)
  generalize hc : ({ sendHeader { c with flags := { c.flags with lockAcquired := true } } .value with
    header := (c.header.write 0 [ResponseType.value.toByte]).storeLE 1 4 (valueSize w.memory p)
    remainingBytes := aggregateResponseHeaderSize } : Connection) = c'
  have hread : attemptMemoryRead c w =
      ⟨.success, c', { w with memory := setLocks w.memory p (locks w.memory p + 1) }, []⟩ := by
    rw [← hc]
    unfold attemptMemoryRead
    split
    · rename_i hnone
      rw [hp] at hnone
      cases hnone
    · rename_i q hq
      obtain rfl := Option.some.inj (hp.symm.trans hq)
      simp only [entryHeaderAcquireLock, if_neg hl, hsize]
      rfl
  have htype : (advance c' c'.remainingBytes).responseType = some .value := by
    have hbyte : c'.header 0 = ResponseType.value.toByte := by
      rw [← hc]
      exact storeLE_outside (c.header.write 0 [ResponseType.value.toByte]) 1 4 (valueSize w.memory p)
        (Or.inl Nat.zero_lt_one)
    show ResponseType.ofByte (c'.header 0) = some .value
    rw [hbyte, ResponseType.ofByte_toByte]
  have hentry : (advance c' c'.remainingBytes).entryHeader = some p := by
    rw [← hc]
    exact hp
  have hheader : pendingBytes c' { w with memory := setLocks w.memory p (locks w.memory p + 1) } =
      ResponseType.value.toByte :: encodeLE 4 (value w.memory p).length := by
    rw [value_length, ← hc]
    exact read_valueHeader ..
  have hbody : ∀ c'' : Connection, c''.buffer = .memory (p.add (entryHeaderSize + keySize w.memory p)) →
      c''.bufferIndex = 0 → c''.remainingBytes = valueSize w.memory p →
      pendingBytes c'' { w with memory := setLocks w.memory p (locks w.memory p + 1) } =
        value w.memory p := by
    intro c'' hbuffer hindex hremaining
    rw [← hvalue, pendingBytes, hbuffer, value, hkey, hsize]
    simp only [hindex, hremaining, Pointer.add, Nat.add_zero]
  simp only [valueAnswer, hread, eventSentHeader_value htype hentry, Except.map]
  rw [hheader, hbody _ (by rw [hkey]) rfl hsize, List.cons_append]

end

/-! ### Transfers of the client -/

/-- The transport moves all of the `size` bytes of the `i`-th transfer from now on. -/
def ClientSocket.Whole (s : ClientSocket) (i size : Nat) : Prop :=
  size ≤ max 1 (s.transport (s.transfers + i))

instance (s : ClientSocket) (i size : Nat) : Decidable (s.Whole i size) :=
  inferInstanceAs (Decidable (_ ≤ _))

section
variable {s : ClientSocket} {bytes rest key stored : List UInt8} {n : Nat}

theorem moved_whole (h : s.Whole 0 n) : s.moved n = n := Nat.min_eq_left h

theorem moved_split (h : ¬ s.Whole 0 n) : s.moved n < n := by
  unfold ClientSocket.Whole at h
  unfold ClientSocket.moved
  rw [Nat.add_zero] at h
  omega

theorem recv_whole (h : s.Whole 0 bytes.length) (hin : s.incoming = bytes ++ rest) :
    s.recv bytes.length = (bytes, { s with transfers := s.transfers + 1, incoming := rest }) := by
  rw [ClientSocket.recv, moved_whole h, hin, List.take_left, List.drop_left]

theorem recv_split (h : ¬ s.Whole 0 n) : (s.recv n).1.length < n := by
  have hlt := moved_split h
  have hle := List.length_take_le (s.moved n) s.incoming
  show (s.incoming.take (s.moved n)).length < n
  omega

/- One byte is never split. -/
theorem recv_one {b : UInt8} (hin : s.incoming = b :: rest) :
    s.recv 1 = ([b], { s with transfers := s.transfers + 1, incoming := rest }) := by
  have hone : s.Whole 0 [b].length := Nat.le_max_left ..
  exact recv_whole hone hin

theorem receiveResponse_sent (type : ResponseType) (s : ClientSocket) :
    (receiveResponse type s).2.sent = s.sent := by
  unfold receiveResponse ClientSocket.recv
  cases s.incoming.take (s.moved 1) with
  | nil => rfl
  | cons b bs =>
    simp only
    split <;> rfl

theorem put_sent {value : List UInt8} (h : putRequest key value = .ok bytes) (s : ClientSocket) :
    (put key value s).2.sent = s.sent ++ bytes.take (s.moved bytes.length) := by
  simp only [put, exchange, h, receiveResponse_sent]
  rfl

theorem ServerReads.length {r : Request} (h : ServerReads r bytes) (ht : 0 < argumentsSize r.type) :
    bytes.length = requestHeaderSize + argumentsSize r.type + (r.key ++ r.value).length := by
  obtain ⟨c₁, c₂, hread⟩ := h (connectionInit 0 (fun _ => 0) fun _ => 0)
    ⟨fun _ _ => 0, memoryQueueOpen 0, ⟨fun _ => 0, []⟩, ⟨false, false, 0, 0, false⟩, [], 0⟩
  have hcomplete := hread.complete
  rw [hread.arguments] at hcomplete
  have hleft : c₁.remainingBytes -
      ((bytes.drop requestHeaderSize).take (argumentsSize r.type)).length = 0 := by
    rw [← storeReceived_remainingBytes c₁]
    exact hcomplete
  rw [hread.receives.2, List.length_take, List.length_drop] at hleft
  have hbody := congrArg List.length hread.body
  rw [List.length_drop] at hbody
  omega

theorem unpack_valueSize (hn : n < 2 ^ 32) : unpack valueArguments (encodeLE 4 n) = .ok [n] := by
  apply unpack_pack
  have hsize : n < 4294967296 := hn
  simp [pack, valueArguments, PackType.size, Except.map, hsize]

/-- The client gets the value exactly if neither its size nor the value itself is split. -/
theorem receiveValue_iff (hstored : stored.length < 2 ^ 32)
    (hin : s.incoming = ResponseType.value.toByte :: (encodeLE 4 stored.length ++ stored) ++ rest) :
    ((receiveValue s).1 = .ok (some stored) ∧ (receiveValue s).2.incoming = rest) ↔
      s.Whole 1 4 ∧ s.Whole 2 stored.length := by
  rw [List.cons_append, List.append_assoc] at hin
  generalize hs₁ : ({ s with
    transfers := s.transfers + 1
    incoming := encodeLE 4 stored.length ++ (stored ++ rest) } : ClientSocket) = s₁
  have hin₁ : s₁.incoming = encodeLE 4 stored.length ++ (stored ++ rest) := by rw [← hs₁]
  have hwhole : ∀ i n, s₁.Whole i n ↔ s.Whole (i + 1) n := by
    intro i n
    rw [← hs₁]
    show _ ≤ max 1 (s.transport (s.transfers + 1 + i)) ↔ _ ≤ max 1 (s.transport (s.transfers + (i + 1)))
    rw [Nat.add_right_comm, Nat.add_assoc]
  rw [receiveValue, recv_one hin, hs₁, ← hwhole 0 4, ← hwhole 1 stored.length]
  have hvalue : ResponseType.value.toByte ≠ ResponseType.notFound.toByte := by decide
  simp only [if_neg hvalue, ne_eq, not_true_eq_false, if_false]
  by_cases hfour : s₁.Whole 0 4
  · have hrecv : s₁.recv (structSize valueArguments) = (encodeLE 4 stored.length,
        { s₁ with transfers := s₁.transfers + 1, incoming := stored ++ rest }) :=
      recv_whole hfour hin₁
    simp only [hrecv, unpack_valueSize hstored]
    generalize hs₂ : ({ s₁ with
      transfers := s₁.transfers + 1
      incoming := stored ++ rest } : ClientSocket) = s₂
    have hnext : s₂.Whole 0 stored.length ↔ s₁.Whole 1 stored.length := by
      rw [← hs₂]
      rfl
    rw [← hnext]
    constructor
    · rintro ⟨hresult, -⟩
      refine ⟨hfour, ?_⟩
      by_contra hsplit
      have hshort := recv_split hsplit
      have hall : (s₂.recv stored.length).1 = stored := Option.some.inj (Except.ok.inj hresult)
      rw [hall] at hshort
      omega
    · rintro ⟨-, hall⟩
      have hlast : s₂.incoming = stored ++ rest := by rw [← hs₂]
      rw [recv_whole hall hlast]
      exact ⟨rfl, rfl⟩
  · have hshort : (s₁.recv (structSize valueArguments)).1.length < structSize valueArguments :=
      recv_split hfour
    generalize s₁.recv (structSize valueArguments) = r at hshort
    have hraised : unpack valueArguments r.1 = .error .structError := by
      rw [unpack, if_neg (by omega)]
    simp only [hraised]
    constructor
    · rintro ⟨hresult, -⟩
      cases hresult
    · rintro ⟨hall, -⟩
      exact absurd hall hfour

theorem get_eq (hk : key.length < 2 ^ 16) (s : ClientSocket) : ∃ s₁ : ClientSocket,
    get key s = receiveValue s₁ ∧ s₁.incoming = s.incoming ∧ s₁.transport = s.transport ∧
      s₁.transfers = s.transfers + 1 := by
  have hget : get key s = receiveValue
      (s.send ([1, 0, 1, UInt8.ofNat RequestType.get.value] ++ encodeLE 2 key.length ++ key)).2 := by
    simp only [CacheClient.get, exchange, keyRequest_eq .get hk]
  exact ⟨_, hget, rfl, rfl, rfl⟩

end

/-- Over any transport: the server reads the request of a put from the stream if and only if the
request is sent whole, and a get that the server answers with a value returns that value, and
nothing is left of it, if and only if its size and the value are each received whole. -/
theorem client_agrees_iff {key value : List UInt8} (hk : key.length < 2 ^ 16)
    (hv : value.length < 2 ^ 32 - 65552) :
    (∀ s : ClientSocket, (∃ bytes, ServerReads ⟨.put, key, value⟩ bytes ∧
        (put key value s).2.sent = s.sent ++ bytes) ↔
      s.Whole 0 (Request.wireSize ⟨.put, key, value⟩)) ∧
    (∃ bytes, keyRequest .get key = .ok bytes ∧ ServerReads ⟨.get, key, []⟩ bytes) ∧
    ∀ (c : Connection) (w : World System) (p : Pointer) (answer rest : List UInt8)
      (s : ClientSocket), c.entryHeader = some p → locks w.memory p ≠ entryHeaderLockCapacity →
      EntryHeader.value w.memory p = value → valueAnswer c w = .ok answer →
      s.incoming = answer ++ rest →
        ((get key s).1 = .ok (some value) ∧ (get key s).2.incoming = rest ↔
          s.Whole 2 4 ∧ s.Whole 3 value.length) := by
  refine ⟨fun s => ?_, ?_, ?_⟩
  · obtain ⟨request, hrequest, hsize, hreads⟩ := putRequest_read hk hv
    have hsent := put_sent hrequest s
    rw [← hsize]
    constructor
    · rintro ⟨bytes, hbytes, hall⟩
      by_contra hsplit
      have hshort := moved_split hsplit
      have hsame : bytes = request.take (s.moved request.length) :=
        List.append_cancel_left (hall.symm.trans hsent)
      have hlen := hbytes.length (Nat.succ_pos 5)
      have hlen' := hreads.length (Nat.succ_pos 5)
      rw [hsame, List.length_take] at hlen
      omega
    · intro hwhole
      refine ⟨request, hreads, ?_⟩
      rw [hsent, moved_whole hwhole, List.take_length]
  · obtain ⟨bytes, hbytes, -, hreads⟩ := keyRequest_read (Or.inl rfl) hk
    exact ⟨bytes, hbytes, hreads⟩
  · rintro c w p answer rest s hentry hlocks rfl hanswer hin
    rw [valueAnswer_eq hentry hlocks] at hanswer
    cases hanswer
    obtain ⟨s₁, hget, hincoming, htransport, htransfers⟩ := get_eq hk s
    have hwhole : ∀ i n, s₁.Whole i n ↔ s.Whole (i + 1) n := by
      intro i n
      unfold ClientSocket.Whole
      rw [htransport, htransfers, Nat.add_right_comm, Nat.add_assoc]
    have hbound : (EntryHeader.value w.memory p).length < 2 ^ 32 := by omega
    rw [hget, receiveValue_iff hbound (hincoming.trans hin), hwhole, hwhole]

/-- The entry of `a = b` at the start of the ring. -/
def memoryOfA : Memory :=
  Memory.write (writeHeader (fun _ _ => 0) (ringPointer 0) 1 1 0) (ringPointer entryHeaderSize) [97, 98]

/-- The connection that has found it. -/
def foundA : Connection :=
  { connectionInit 5 (fun _ => 0) fun _ => 0 with entryHeader := some (ringPointer 0) }

/- A value of one byte over a transport that moves 16 bytes at a time. -/
theorem client_agrees_short :
    (∃ bytes, ServerReads ⟨.put, [97], [98]⟩ bytes ∧
      (put [97] [98] ⟨fun _ => 16, 0, [], [1]⟩).2.sent = bytes) ∧
    valueAnswer foundA (cacheServerOpen ByteArea.decodeLE 64 memoryOfA).world =
      .ok [2, 1, 0, 0, 0, 98] ∧
    (get [97] ⟨fun _ => 16, 0, [], [2, 1, 0, 0, 0, 98]⟩).1 = .ok (some [98]) ∧
    (get [97] ⟨fun _ => 16, 0, [], [2, 1, 0, 0, 0, 98]⟩).2.incoming = [] := by
  have hagrees := @client_agrees_iff [97] [98] (by decide) (by decide)
  have hanswer : valueAnswer foundA (cacheServerOpen ByteArea.decodeLE 64 memoryOfA).world =
      .ok [2, 1, 0, 0, 0, 98] := by
    rw [valueAnswer_eq (p := ringPointer 0) rfl (by decide)]
    decide
  refine ⟨(hagrees.1 ⟨fun _ => 16, 0, [], [1]⟩).mpr (by decide), hanswer, ?_⟩
  exact (hagrees.2.2 foundA _ (ringPointer 0) _ [] ⟨fun _ => 16, 0, [], [2, 1, 0, 0, 0, 98]⟩ rfl
    (by decide) (by decide) hanswer rfl).mpr (by decide)

/- Over one that moves 4 bytes at a time the server gets the header of the put only, and the get
of a value of 5 bytes returns 4 of them. -/
theorem transfers_split :
    (put [97] [1, 2, 3, 4, 5] ⟨fun _ => 4, 0, [], [1]⟩).2.sent = [1, 0, 1, 2] ∧
    (get [97] ⟨fun _ => 4, 0, [], [2, 5, 0, 0, 0, 1, 2, 3, 4, 5]⟩).1 = .ok (some [1, 2, 3, 4]) ∧
    (get [97] ⟨fun _ => 4, 0, [], [2, 5, 0, 0, 0, 1, 2, 3, 4, 5]⟩).2.incoming = [5] :=
  ⟨rfl, rfl, rfl⟩

end CacheServer
