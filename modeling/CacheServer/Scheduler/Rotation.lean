import CacheServer.Library.Carousel
import CacheServer.Scheduler.Schedule

/-!
# The order of service

The active list with `current_connection` is a carousel: a connection that
transfers nothing is passed over, one that transfers something starts the round
again at the head of the list, and one whose request is finished is moved to the
tail.
-/

namespace CacheServer

namespace Server

/-! ### Turns -/

/-- The turn of a new connection, if there is one to accept. -/
def acceptTurns (env : Environment) (s : Server) : List (Turn Nat) :=
  match env.accept with
  | .none | .refused => []
  | .opened _ _ _ => [.joins s.accepted]

/-- The turns in a round that serves connection `i` and wakes others. -/
def serveTurns (i : Nat) (result : ConnectionResult) (woken : List Nat) : List (Turn Nat) :=
  match result with
  | .success => [.works i]
  | .noTransfer => [.waits i]
  | .newRequest => [.completes i]
  | .disconnect => .leaves i :: woken.map .joins
  | .readBlocked | .writeBlocked => []

/-- A round that keeps the schedule, with its turns. -/
inductive Round (s : Server) : List (Turn Nat) → Server → Prop
  | accepts {s' : Server} (env : Environment) (fuel : Nat)
      (due : s.currentConnection = none ∨ acceptDue env s = true)
      (step : cacheServerProc fuel env s = .ok s') : Round s (s.acceptTurns env) s'
  | serves {s₁ s' : Server} {env : Environment} {current : Nat} {o : Outcome System}
      {woken : List Nat} {refusal : Option BlockType} (fuel : Nat)
      (serves : s.Serves env current o woken s₁ refusal)
      (keeps : s.KeepsSchedule current o.result woken s₁ refusal)
      (step : cacheServerProc fuel env s = .ok s') : Round s (serveTurns current o.result woken) s'

inductive Rounds : Server → List (List (Turn Nat)) → Server → Prop
  | nil {s : Server} : Rounds s [] s
  | cons {s s₁ s' : Server} {turns : List (Turn Nat)} {rounds : List (List (Turn Nat))}
      (round : s.Round turns s₁) (rest : Rounds s₁ rounds s') : Rounds s (turns :: rounds) s'

/-- The active list and the cursor are those of the carousel. -/
structure Carries (s : Server) (k : Carousel Nat) : Prop where
  ready : s.Ready k.items
  cursor : s.currentConnection = k.ahead.head?
  turn : k.ahead = [] → k.passed = []

section
variable {s s₁ s' : Server} {k k' : Carousel Nat} {turns : List (Turn Nat)}
  {rounds : List (List (Turn Nat))} {current i x : Nat} {p a xs woken : List Nat}

theorem Carries.nodup (h : s.Carries k) : k.items.Nodup := h.ready.active.nodup

theorem Carries.scheduled (h : s.Carries k) : s.Scheduled k.items := by
  refine ⟨h.ready, ?_, fun i hi => ?_⟩
  · rw [h.cursor, List.head?_eq_none_iff]
    constructor
    · intro ha
      rw [Carousel.items, ha, h.turn ha, List.append_nil]
    · intro hitems
      exact (List.append_eq_nil_iff.mp hitems).2
  · rw [h.cursor] at hi
    exact List.mem_append_right _ (List.mem_of_mem_head? hi)

theorem Scheduled.carries (h : s.Scheduled xs) : ∃ k : Carousel Nat, k.items = xs ∧ s.Carries k := by
  cases hcur : s.currentConnection with
  | none =>
    have hxs : xs = [] := h.idle.mp hcur
    subst hxs
    exact ⟨⟨[], []⟩, rfl, h.toReady, hcur, fun _ => rfl⟩
  | some current =>
    obtain ⟨p, a, rfl⟩ := List.append_of_mem (h.current current hcur)
    exact ⟨⟨p, current :: a⟩, rfl, h.toReady, hcur, fun he => by cases he⟩

/-! ### One round is a step of the carousel, or a few -/

/-- `get_next_connection` in the carousel: the current connection is the last to come. -/
theorem getNextConnection_around (h : s.Active (p ++ current :: a)) :
    getNextConnection s current = ((Carousel.around p a).push current).ahead.head? := by
  have hnext : s.links.next current = a.head? := h.next_eq
  have hhead : s.list.head = (p ++ current :: a).head? := h.head
  unfold getNextConnection
  rw [hnext]
  cases a with
  | nil => exact hhead
  | cons y a => rfl

theorem around_turn (p a : List Nat) :
    (Carousel.around p a).ahead = [] → p = [] ∧ a = [] := by
  intro h
  cases a with
  | nil => exact ⟨h, rfl⟩
  | cons y a => cases h

theorem push_carries {k : Carousel Nat} (h : s.Ready (k.items ++ [i]))
    (hcur : s.currentConnection = (k.push i).ahead.head?) : s.Carries (k.push i) := by
  refine ⟨?_, hcur, fun he => absurd he (by simp [Carousel.push])⟩
  rw [Carousel.push_items]
  exact h

/-- The connections that are woken join at the back. -/
theorem run_joins (hnodup : (k.items ++ woken).Nodup) :
    k.Run (woken.map .joins) ⟨k.passed, k.ahead ++ woken⟩ := by
  induction woken generalizing k with
  | nil =>
    rw [List.append_nil]
    exact .nil
  | cons i woken ih =>
    have hnew : i ∉ k.items := fun hi =>
      (List.nodup_append.mp hnodup).2.2 i hi i List.mem_cons_self rfl
    have hpush : ((k.push i).items ++ woken).Nodup := by
      rw [Carousel.push_items, List.append_assoc]
      exact hnodup
    have hrest := ih hpush
    simp only [Carousel.push, List.append_assoc, List.cons_append, List.nil_append] at hrest
    exact .cons (.joins hnew) hrest

theorem cacheServerProc_accepts {env : Environment}
    (h : s.currentConnection = none ∨ acceptDue env s = true) (n : Nat) :
    cacheServerProc n env s = acceptConnection env (s.answered env) := by
  rw [cacheServerProc_eq]
  cases hcur : s.currentConnection with
  | none => rfl
  | some current => exact if_pos (h.resolve_left (by simp [hcur]))

theorem acceptConnection_carries {env : Environment} (h : acceptConnection env s = .ok s')
    (hs : s.Sound) (hk : s.Carries k) : ∃ k', k.Run (s.acceptTurns env) k' ∧ s'.Carries k' := by
  unfold acceptTurns
  cases haccept : env.accept with
  | none =>
    rw [acceptConnection_idle (Or.inl haccept)] at h
    cases h
    exact ⟨k, .nil, ⟨hk.ready.active, hk.ready.ready⟩, hk.cursor, hk.turn⟩
  | refused =>
    rw [acceptConnection_idle (Or.inr haccept)] at h
    cases h
    exact ⟨k, .nil, ⟨hk.ready.active, hk.ready.ready⟩, hk.cursor, hk.turn⟩
  | opened fileDescriptor header arguments =>
    obtain ⟨links, list, happend, hchain⟩ := hk.ready.opened hs env.answers.timestamp
      (connectionInit fileDescriptor header arguments)
    rw [acceptConnection_opened haccept, happend] at h
    have hfresh : s.accepted ∉ k.items := hk.ready.fresh hs
    have hconn : ∀ i ∈ k.items ++ [s.accepted], ∃ c, (s.opened env.answers.timestamp
        (connectionInit fileDescriptor header arguments)).connections i = some c ∧
          c.state.awaits = none := by
      intro i hmem
      rcases List.mem_append.mp hmem with hmem | hmem
      · have hne : i ≠ s.accepted := fun he => hfresh (he ▸ hmem)
        obtain ⟨c, hc, hn⟩ := hk.ready.ready i hmem
        exact ⟨c, (if_neg hne).trans hc, hn⟩
      · rw [List.mem_singleton.mp hmem]
        exact ⟨_, if_pos rfl, rfl⟩
    refine ⟨k.push s.accepted, .cons (.joins hfresh) .nil, ?_⟩
    change (Except.ok _ : Except Fault Server) = .ok s' at h
    have hs' := Except.ok.inj h
    change (if s.currentConnection = none then _ else _) = s' at hs'
    cases hcur : s.currentConnection with
    | none =>
      rw [if_pos hcur] at hs'
      subst hs'
      have hahead : k.ahead = [] := List.head?_eq_none_iff.mp (hk.cursor.symm.trans hcur)
      refine push_carries ⟨hchain, hconn⟩ ?_
      simp [Carousel.push, hahead]
    | some current =>
      rw [if_neg (by simp [hcur])] at hs'
      subst hs'
      refine push_carries ⟨hchain, hconn⟩ ?_
      have hhead : k.ahead.head? = some current := hk.cursor.symm.trans hcur
      change s.currentConnection = _
      simp [Carousel.push, List.head?_append, hhead, hcur]

/-- The switch over the result of a connection that is not closed. -/
theorem handleResult_carries {result : ConnectionResult} {n : Nat}
    (h : handleResult n current (getNextConnection s current) result s₁ = .ok s')
    (hactive : s.Active (p ++ current :: a)) (hready : s₁.Ready (p ++ current :: a))
    (hblocks : result.blocks = none) (hd : result ≠ .disconnect) :
    ∃ k', (⟨p, current :: a⟩ : Carousel Nat).Run (serveTurns current result woken) k' ∧
      s'.Carries k' := by
  have hnext := getNextConnection_around hactive
  cases result with
  | disconnect => exact absurd rfl hd
  | readBlocked | writeBlocked => cases hblocks
  | success =>
    cases h
    refine ⟨⟨[], p ++ current :: a⟩, .cons .works .nil, ⟨hready.active, hready.ready⟩, ?_, fun _ => rfl⟩
    exact hready.active.head
  | noTransfer =>
    cases h
    have hitems : (Carousel.around (p ++ [current]) a).items = p ++ current :: a := by simp
    refine ⟨Carousel.around (p ++ [current]) a, .cons .waits .nil, ?_, ?_, fun he => ?_⟩
    · rw [hitems]
      exact ⟨hready.active, hready.ready⟩
    · change getNextConnection s current = _
      rw [hnext]
      cases a with
      | nil => rfl
      | cons y a => rfl
    · exact absurd (around_turn _ _ he).1 (by simp)
  | newRequest =>
    obtain ⟨links, list, hrequeue, hchain⟩ :=
      @Ready.requeue s₁ current (getNextConnection s current) p a hready
    rw [hrequeue n] at h
    cases h
    refine ⟨_, .cons .completes .nil, push_carries ⟨?_, fun i hi => hready.ready i ?_⟩ hnext⟩
    · rw [Carousel.around_items]
      exact hchain
    · simp only [Carousel.around_items, List.mem_append, List.mem_cons, List.not_mem_nil,
        or_false] at hi ⊢
      tauto

/-- A connection that is closed leaves before those that it wakes join. -/
theorem handleResult_carries_disconnect {n : Nat}
    (h : handleResult n current (getNextConnection s current) .disconnect s₁ = .ok s')
    (hactive : s.Active (p ++ current :: a)) (hready : s₁.Ready (p ++ current :: a ++ woken))
    (hlonely : p = [] ∧ a = [] → woken = []) :
    ∃ k', (⟨p, current :: a⟩ : Carousel Nat).Run (serveTurns current .disconnect woken) k' ∧
      s'.Carries k' := by
  have hnext := getNextConnection_around hactive
  rw [List.append_assoc, List.cons_append] at hready
  obtain ⟨s₂, hs₂, hready₂⟩ :=
    @handleResult_disconnect s₁ current (getNextConnection s current) p (a ++ woken) hready
  rw [hs₂ n] at h
  cases h
  have hnodup : current ∉ p ++ a := (List.nodup_cons.mp (List.nodup_middle.mp hactive.nodup)).1
  let k := Carousel.around p a
  have hitems : k.items = p ++ a := Carousel.around_items p a
  have hjoins : k.Run (woken.map .joins) ⟨k.passed, k.ahead ++ woken⟩ := by
    refine run_joins ?_
    rw [hitems, List.append_assoc]
    exact hready₂.active.nodup
  have hback : (⟨k.passed, k.ahead ++ woken⟩ : Carousel Nat).items = p ++ (a ++ woken) := by
    rw [← List.append_assoc, ← hitems, Carousel.items, Carousel.items, List.append_assoc]
  have hready' : s₂.Ready (⟨k.passed, k.ahead ++ woken⟩ : Carousel Nat).items := by
    rw [hback]
    exact hready₂
  refine ⟨_, .cons .leaves hjoins, ⟨hready'.active, hready'.ready⟩, ?_, fun he => ?_⟩
  · change (if getNextConnection s current = some current then none
      else getNextConnection s current) = (k.ahead ++ woken).head?
    rw [hnext]
    cases hahead : k.ahead with
    | nil =>
      obtain ⟨rfl, rfl⟩ := around_turn p a hahead
      rw [hlonely ⟨rfl, rfl⟩]
      exact if_pos rfl
    | cons y l =>
      have hhead : (k.push current).ahead.head? = some y := by
        simp [Carousel.push, hahead]
      have hy : y ∈ k.items := List.mem_append_right _ (hahead ▸ List.mem_cons_self)
      have hne : y ≠ current := by
        rintro rfl
        exact hnodup (hitems ▸ hy)
      rw [hhead, if_neg fun he => hne (Option.some.inj he)]
      rfl
  · obtain ⟨hp, ha⟩ := around_turn p a (List.append_eq_nil_iff.mp he).1
    subst hp ha
    rfl

/-- The last connection that is closed leaves nothing, also after a failed retry. -/
theorem handleResult_cursor {next : Option Nat} {n : Nat}
    (h : handleResult n current next .disconnect s = .ok s') :
    s'.currentConnection = if next = some current then none else next := by
  obtain ⟨s₁, hremove, h⟩ := Except.bind_eq_ok_iff.mp h
  cases h
  rfl

theorem serve_carries {env : Environment} {o : Outcome System} {refusal : Option BlockType} {n : Nat}
    (h : s.Serves env current o woken s₁ refusal)
    (hkeeps : s.KeepsSchedule current o.result woken s₁ refusal)
    (step : cacheServerProc n env s = .ok s') (hs : s.Sound) (hk : s.Carries k) :
    ∃ k', k.Run (serveTurns current o.result woken) k' ∧ s'.Carries k' := by
  obtain ⟨p, ahead⟩ := k
  have hcur : ahead.head? = some current := hk.cursor.symm.trans h.cursor
  obtain ⟨a, rfl⟩ : ∃ a, ahead = current :: a := by
    cases ahead with
    | nil => cases hcur
    | cons y a =>
      cases hcur
      exact ⟨a, rfl⟩
  have hready : s.Ready (p ++ current :: a) := hk.ready
  have halone := alone_iff_of_active hready.active
  obtain ⟨c, hc, ho⟩ := h.proc
  have hawaits : o.connection.state.awaits = o.result.blocks := connectionProc_awaits ho
  have hready₁ : ((s.answered env).after current o).Ready (p ++ current :: a) :=
    Ready.after_self (s := s.answered env) ⟨hready.active, hready.ready⟩
      (hawaits.trans hkeeps.unblocked)
  obtain ⟨s₂, hrequeues, m, hm⟩ := (cacheServerProc_returns h).mp ⟨n, step⟩
  by_cases hd : o.result = .disconnect
  · rw [hd] at hm ⊢
    cases refusal with
    | none =>
      cases hrequeues
      have hwoken := hready₁.handles h.handles (by simp)
      exact handleResult_carries_disconnect hm hready.active hwoken.ready fun he =>
        hkeeps.alone hd (halone.mpr he)
    | some t =>
      obtain ⟨hlist, rfl, -⟩ := hkeeps.refused (by simp)
      obtain ⟨rfl, rfl⟩ := halone.mp hlist
      obtain ⟨s'', hreturns, hwf⟩ := (serves_wellFormed_iff hs ⟨_, hk.scheduled⟩ h).mpr hkeeps
      cases Returns.unique cacheServerProc_steady hreturns ⟨n, step⟩
      have hnone : s'.currentConnection = none := by
        rw [handleResult_cursor hm, getNextConnection_around hready.active]
        exact if_pos rfl
      obtain ⟨xs, hxs⟩ := hwf
      cases hxs.idle.mp hnone
      exact ⟨⟨[], []⟩, .cons .leaves .nil, hxs.toReady, hnone, fun _ => rfl⟩
  · obtain ⟨rfl, rfl, rfl⟩ := h.quiet hs hd
    cases hrequeues
    exact handleResult_carries hm hready.active hready₁ hkeeps.unblocked hd

theorem Round.carries (h : s.Round turns s') (hs : s.Sound) (hk : s.Carries k) :
    ∃ k', k.Run turns k' ∧ s'.Carries k' := by
  cases h with
  | accepts env fuel due step =>
    have hanswered : (s.answered env).Carries k := ⟨⟨hk.ready.active, hk.ready.ready⟩, hk.cursor, hk.turn⟩
    rw [cacheServerProc_accepts due] at step
    exact acceptConnection_carries (s := s.answered env) step ⟨hs.fresh, hs.valid⟩ hanswered
  | serves fuel serves keeps step => exact serve_carries serves keeps step hs hk

theorem Round.sound (h : s.Round turns s') (hs : s.Sound) : s'.Sound := by
  cases h with
  | accepts env fuel due step | serves fuel _ _ step => exact cacheServerProc_sound hs step

/-- Rounds that keep the schedule are turns of the carousel. -/
theorem Rounds.carries (h : s.Rounds rounds s') (hs : s.Sound) (hk : s.Carries k) :
    ∃ k', k.Run rounds.flatten k' ∧ s'.Carries k' := by
  induction h generalizing k with
  | nil => exact ⟨k, .nil, hk⟩
  | cons round rest ih =>
    obtain ⟨k₁, hrun, hk₁⟩ := round.carries hs hk
    obtain ⟨k', hrest, hk'⟩ := ih (round.sound hs) hk₁
    exact ⟨k', hrun.append hrest, hk'⟩

/-! ### A request is begun before it is finished -/

/-- Connection `x`, if it is open, has received no request that it has not finished. -/
def Unbegun (s : Server) (x : Nat) : Prop :=
  ∀ c, s.connections x = some c → c.state = .receivingHeader

/-- After a finished request the connection waits for the header of the next one. -/
def Renews (o : Outcome System) : Prop :=
  o.result = .newRequest → o.connection.state = .receivingHeader

section
variable {c : Connection} {w : World System} {o : Outcome System}

theorem renews_of_success (h : o.result = .success) : Renews o := fun hr => by
  rw [h] at hr
  cases hr

theorem finishRequest_renews : Renews (finishRequest c w) := by
  unfold finishRequest
  split
  · exact fun _ => rfl
  · intro hr
    cases hr

theorem eventReceivedHeader_result : (eventReceivedHeader c w).result = .success := by
  unfold eventReceivedHeader
  split
  · rfl
  · simp only
    split <;> rfl

theorem attemptMemoryWrite_renews (h : attemptMemoryWrite serverServices c w = .ok o) : Renews o := by
  intro hr
  rcases attemptMemoryWrite_result h with hw | hw <;> rw [hw] at hr <;> cases hr

theorem eventReceivedArguments_renews (h : eventReceivedArguments serverServices c w = .ok o) :
    Renews o := by
  unfold eventReceivedArguments at h
  split at h
  · split at h <;> cases h <;> exact renews_of_success rfl
  · split at h <;> cases h <;> exact renews_of_success rfl
  · exact attemptMemoryWrite_renews h
  · cases h

theorem attemptMemoryRead_renews (events : List Event) :
    Renews ((attemptMemoryRead c w).after events) := by
  intro hr
  have hresult : (attemptMemoryRead c w).result = .newRequest := hr
  rcases attemptMemoryRead_result c w with hw | hw <;> rw [hw] at hresult <;> cases hresult

theorem eventReceivedBody_renews (h : eventReceivedBody serverServices c w = .ok o) : Renews o := by
  unfold eventReceivedBody at h
  split at h
  · simp only at h
    split at h <;> cases h
    exact attemptMemoryRead_renews _
  · simp only at h
    split at h <;> cases h
    exact renews_of_success rfl
  · simp only at h
    split at h <;> cases h <;> exact renews_of_success rfl
  · cases h
  · cases h
  · cases h

theorem eventSentHeader_renews (h : eventSentHeader c w = .ok o) : Renews o := by
  unfold eventSentHeader at h
  split at h
  case h_9 =>
    split at h <;> cases h
    exact renews_of_success rfl
  case h_10 => cases h
  all_goals
    cases h
    exact finishRequest_renews

theorem eventSentBody_renews (h : eventSentBody c w = .ok o) : Renews o := by
  unfold eventSentBody at h
  split at h
  · cases h
    exact finishRequest_renews
  · cases h
  · cases h

theorem connectionEvent_renews (h : connectionEvent serverServices c w = .ok o) : Renews o := by
  unfold connectionEvent at h
  split at h
  · cases h
    exact renews_of_success eventReceivedHeader_result
  · exact eventReceivedArguments_renews h
  · exact eventReceivedBody_renews h
  · exact eventSentHeader_renews h
  · exact eventSentBody_renews h
  · cases h

theorem connectionProc_renews {socket : Socket}
    (h : connectionProc serverServices socket c w = .ok o) : Renews o := by
  have hreturns := connectionProc_returns h
  cases hreturns with
  | unsuccessful transfer other =>
    intro hr
    rcases connectionTransfer_result transfer with ht | ht | ht <;> rw [ht] at hr <;> cases hr
  | incomplete transfer success more => exact renews_of_success success
  | @completed o₁ o₂ transfer success complete event =>
    exact (connectionEvent_renews event : Renews o₂)

/-- While the header of a request is received, no request can be finished. -/
theorem connectionProc_unbegun {socket : Socket} (hc : c.state = .receivingHeader)
    (h : connectionProc serverServices socket c w = .ok o) :
    o.result = .success ∨ o.result = .disconnect ∨
      o.result = .noTransfer ∧ o.connection.state = .receivingHeader := by
  have hreturns := connectionProc_returns h
  cases hreturns with
  | unsuccessful transfer other =>
    have htransfer := connectionTransfer_returns transfer
    cases htransfer with
    | idle => exact Or.inr (Or.inr ⟨rfl, hc⟩)
    | failed failed failure closed => exact Or.inr (Or.inl closed)
    | received | sent => exact absurd rfl other
  | incomplete transfer success more => exact Or.inl success
  | @completed o₁ o₂ transfer success complete event =>
    have hstate : o₁.connection.state = .receivingHeader := by
      have htransfer := connectionTransfer_returns transfer
      cases htransfer with
      | idle => exact hc
      | failed failed failure closed =>
        rw [closed] at success
        cases success
      | received bytes => exact (storeReceived_state c w bytes).trans hc
      | sent => exact hc
    unfold connectionEvent at event
    rw [hstate] at event
    cases event
    exact Or.inl eventReceivedHeader_result

end

/-! ### Overtaking -/

theorem serveTurns_completes {result : ConnectionResult}
    (h : .completes x ∈ serveTurns i result woken) : x = i ∧ result = .newRequest := by
  cases result <;> simp_all [serveTurns]

theorem serveTurns_works {result : ConnectionResult} (h : .works x ∉ serveTurns x result woken) :
    result ≠ .success := by
  rintro rfl
  exact h List.mem_cons_self

theorem Unbegun.after {c : Connection} {t : BlockType} (hx : s.Unbegun x)
    (hc : s.connections i = some c) (ht : c.state.awaits = some t) (o : Outcome System) :
    (s.after i o).Unbegun x := by
  have hne : x ≠ i := by
    rintro rfl
    rw [hx c hc] at ht
    cases ht
  intro c' hc'
  rw [after_connections, if_neg hne] at hc'
  exact hx c' hc'

theorem wakes_unbegun {t : BlockType} {refusal : Option BlockType}
    (h : Wakes current t s woken s' refusal) (hx : s.Unbegun x) : s'.Unbegun x := by
  induction h with
  | done deref pop =>
    obtain ⟨b, rfl⟩ := popBlocked_inv pop
    exact hx
  | @refused s₀ s₁ s' c i result deref pop retry failed =>
    obtain ⟨b, rfl⟩ := popBlocked_inv pop
    obtain ⟨c, o, hc, ho, -, rfl⟩ := call_inv retry
    exact Unbegun.after (s := { s₀ with blocked := b }) hx hc (unblockFunc_awaits ho).1 o
  | @woken s₀ s₁ s₂ s₃ s' c i is refusal deref pop retry append rest ih =>
    obtain ⟨b, rfl⟩ := popBlocked_inv pop
    obtain ⟨c, o, hc, ho, -, rfl⟩ := call_inv retry
    obtain ⟨links, list, rfl⟩ := append_frame append
    exact ih (Unbegun.after (s := { s₀ with blocked := b }) hx hc (unblockFunc_awaits ho).1 o)

theorem handles_unbegun {refusal : Option BlockType} (h : Handles current s woken s' refusal)
    (hx : s.Unbegun x) : s'.Unbegun x := by
  cases h with
  | quiet deref event => exact hx
  | unblocks type deref event wakes => exact wakes_unbegun wakes hx

theorem handleResult_connections {next : Option Nat} {result : ConnectionResult} {n : Nat}
    (h : handleResult n current next result s = .ok s') :
    s'.connections = if result = .disconnect then (s.setConnection current none).connections
      else s.connections := by
  have hblock : ∀ t, (s.remove current >>= fun s => s.addBlocked n current t) = .ok s' →
      s'.connections = s.connections := by
    intro t h
    obtain ⟨s₁, hremove, h⟩ := Except.bind_eq_ok_iff.mp h
    obtain ⟨links, list, rfl⟩ := remove_frame hremove
    obtain ⟨c', -, -, rfl⟩ := addBlocked_returns.mp ⟨n, h⟩
    rfl
  cases result with
  | success | noTransfer =>
    cases h
    rfl
  | newRequest =>
    obtain ⟨s₁, hremove, h⟩ := Except.bind_eq_ok_iff.mp h
    obtain ⟨links, list, rfl⟩ := remove_frame hremove
    obtain ⟨s₂, happend, h⟩ := Except.bind_eq_ok_iff.mp h
    obtain ⟨links', list', rfl⟩ := append_frame happend
    cases h
    rfl
  | disconnect =>
    obtain ⟨s₁, hremove, h⟩ := Except.bind_eq_ok_iff.mp h
    obtain ⟨links, list, rfl⟩ := remove_frame hremove
    cases h
    rfl
  | readBlocked => exact hblock .read h
  | writeBlocked => exact hblock .write h

theorem requeues_connections {refusal : Option BlockType} (h : Requeues current refusal s s') :
    s'.connections = s.connections := by
  cases refusal with
  | none =>
    cases h
    rfl
  | some t =>
    obtain ⟨c', -, -, rfl⟩ := addBlocked_returns.mp h
    rfl

theorem acceptConnection_unbegun {env : Environment} (h : acceptConnection env s = .ok s')
    (hx : s.Unbegun x) : s'.Unbegun x := by
  cases haccept : env.accept with
  | none =>
    rw [acceptConnection_idle (Or.inl haccept)] at h
    cases h
    exact hx
  | refused =>
    rw [acceptConnection_idle (Or.inr haccept)] at h
    cases h
    exact hx
  | opened fileDescriptor header arguments =>
    rw [acceptConnection_opened haccept] at h
    obtain ⟨s₁, happend, h⟩ := Except.bind_eq_ok_iff.mp h
    obtain ⟨links, list, rfl⟩ := append_frame happend
    have hopened : (s.opened env.answers.timestamp
        (connectionInit fileDescriptor header arguments)).Unbegun x := by
      intro c hc
      by_cases hi : x = s.accepted
      · cases (if_pos hi).symm.trans hc
        rfl
      · exact hx c ((if_neg hi).symm.trans hc)
    simp only at h
    split at h <;> cases h <;> exact hopened

theorem Round.not_completes (h : s.Round turns s') (hx : s.Unbegun x) : .completes x ∉ turns := by
  intro hmem
  cases h with
  | accepts env fuel due step =>
    unfold acceptTurns at hmem
    split at hmem <;> simp at hmem
  | serves fuel serves keeps step =>
    obtain ⟨rfl, hr⟩ := serveTurns_completes hmem
    obtain ⟨c, hc, ho⟩ := serves.proc
    rcases connectionProc_unbegun (hx c hc) ho with hw | hw | ⟨hw, -⟩ <;> rw [hw] at hr <;> cases hr

/-- A connection stays at the header of its next request until its turn works. -/
theorem Round.unbegun (h : s.Round turns s')
    (hx : s.Unbegun x ∧ .works x ∉ turns ∨ .completes x ∈ turns) : s'.Unbegun x := by
  cases h with
  | accepts env fuel due step =>
    rw [cacheServerProc_accepts due] at step
    refine acceptConnection_unbegun step ?_
    rcases hx with ⟨hx, -⟩ | hmem
    · exact hx
    · unfold acceptTurns at hmem
      split at hmem <;> simp at hmem
  | @serves s₁ s' env current o woken refusal fuel serves keeps step =>
    obtain ⟨c, hc, ho⟩ := serves.proc
    obtain ⟨s₂, hrequeues, m, hm⟩ := (cacheServerProc_returns serves).mp ⟨fuel, step⟩
    have hconn := handleResult_connections hm
    by_cases hclosed : x = current ∧ o.result = .disconnect
    · obtain ⟨rfl, hd⟩ := hclosed
      intro c' hc'
      rw [hconn, if_pos hd] at hc'
      cases (if_pos rfl).symm.trans hc'
    · have hafter : ((s.answered env).after current o).Unbegun x := by
        intro c' hc'
        rw [after_connections] at hc'
        by_cases hxc : x = current
        · subst hxc
          cases (if_pos rfl).symm.trans hc'
          rcases hx with ⟨hx, hworks⟩ | hmem
          · rcases connectionProc_unbegun (hx c hc) ho with hr | hr | ⟨-, hstate⟩
            · exact absurd hr (serveTurns_works hworks)
            · exact absurd ⟨rfl, hr⟩ hclosed
            · exact hstate
          · exact connectionProc_renews ho (serveTurns_completes hmem).2
        · rcases hx with ⟨hx, -⟩ | hmem
          · exact hx c' ((if_neg hxc).symm.trans hc')
          · exact absurd (serveTurns_completes hmem).1 hxc
      have hhandled := handles_unbegun serves.handles hafter
      have hrequeued : s₂.Unbegun x := fun c' hc' => hhandled c' (requeues_connections hrequeues ▸ hc')
      intro c' hc'
      rw [hconn] at hc'
      split at hc'
      · by_cases hxc : x = current
        · cases (if_pos hxc).symm.trans hc'
        · exact hrequeued c' ((if_neg hxc).symm.trans hc')
      · exact hrequeued c' hc'

theorem Rounds.rested (h : s.Rounds rounds s') (hx : s.Unbegun x) : Turn.Rested x rounds.flatten := by
  induction h with
  | nil => trivial
  | @cons s s₁ s' turns rounds round rest ih =>
    refine Turn.Rested.append (round.not_completes hx) ?_
    by_cases hworks : .works x ∈ turns
    · exact Or.inl hworks
    · exact Or.inr (ih (round.unbegun (Or.inl ⟨hx, hworks⟩)))

/-- Every connection works between any two requests that it finishes. -/
theorem Rounds.diligent (h : s.Rounds rounds s') (x : Nat) : Turn.Diligent x rounds.flatten := by
  induction h with
  | nil => trivial
  | @cons s s₁ s' turns rounds round rest ih =>
    by_cases hmem : .completes x ∈ turns
    · have hunbegun : s₁.Unbegun x := round.unbegun (Or.inr hmem)
      have hturns : turns = [.completes x] := by
        cases round with
        | accepts env fuel due step =>
          unfold acceptTurns at hmem
          split at hmem <;> simp at hmem
        | serves fuel serves keeps step =>
          obtain ⟨rfl, hr⟩ := serveTurns_completes hmem
          rw [hr]
          rfl
      rw [hturns]
      exact ⟨fun _ => rest.rested hunbegun, ih⟩
    · exact Turn.Diligent.append hmem ih

theorem Round.kept {hash : List UInt8 → Nat} {capacityBytes : Nat} {memory : Memory}
    (h : s.Round turns s') (hs : Kept hash capacityBytes memory s) :
    Kept hash capacityBytes memory s' := by
  cases h with
  | accepts env fuel due step => exact .accepts env fuel hs due step
  | serves fuel serves keeps step => exact .serves fuel hs serves keeps step

theorem Rounds.kept {hash : List UInt8 → Nat} {capacityBytes : Nat} {memory : Memory}
    (h : s.Rounds rounds s') (hs : Kept hash capacityBytes memory s) :
    Kept hash capacityBytes memory s' := by
  induction h with
  | nil => exact hs
  | cons round rest ih => exact ih (round.kept hs)

/-! ### Idle rounds -/

/-- One idle round for each connection of the carousel. -/
theorem Rounds.idle (h : s.Rounds rounds s') (hs : s.Sound) (hk : s.Carries k)
    (hidle : ∀ turns ∈ rounds, ∃ i, turns = [.waits i]) (hlength : rounds.length = k.items.length) :
    rounds = k.order.map (fun i => [.waits i]) ∧ s'.Scheduled k.items ∧
      s'.currentConnection = s.currentConnection := by
  have hsingle : rounds = rounds.flatten.map fun t => [t] := by
    clear h hlength
    induction rounds with
    | nil => rfl
    | cons turns rounds ih =>
      obtain ⟨i, rfl⟩ := hidle turns List.mem_cons_self
      rw [List.flatten_cons, List.singleton_append, List.map_cons,
        ← ih fun t ht => hidle t (List.mem_cons_of_mem _ ht)]
  have hwaits : ∀ t ∈ rounds.flatten, ∃ i, t = .waits i := by
    intro t ht
    obtain ⟨turns, hturns, ht⟩ := List.mem_flatten.mp ht
    obtain ⟨i, rfl⟩ := hidle turns hturns
    exact ⟨i, List.mem_singleton.mp ht⟩
  have hlen : rounds.flatten.length = k.items.length := by
    rw [← hlength]
    conv_rhs => rw [hsingle, List.length_map]
  obtain ⟨k', hrun, hk'⟩ := h.carries hs hk
  obtain ⟨hitems, -, -⟩ := hrun.waits hwaits
  obtain ⟨hturns, horder⟩ := hrun.waits_round hwaits hlen
  have hhead : ∀ {s : Server} {k : Carousel Nat}, s.Carries k →
      s.currentConnection = k.order.head? := by
    intro s k hk
    rw [hk.cursor, Carousel.order]
    cases hahead : k.ahead with
    | nil => rw [hk.turn hahead, List.append_nil]
    | cons x a => rfl
  refine ⟨?_, hitems ▸ hk'.scheduled, ?_⟩
  · rw [hsingle, hturns, List.map_map]
    rfl
  · rw [hhead hk', horder, ← hhead hk]

end

/-! ### Runs without wake-ups -/

/-- The turns of a round that closes and blocks no connection. -/
def quietTurns (env : Environment) (s : Server) : Option (List (Turn Nat)) :=
  match s.currentConnection with
  | none => some (s.acceptTurns env)
  | some current =>
    if acceptDue env s then some (s.acceptTurns env)
    else
      match s.connections current with
      | none => none
      | some c =>
        match connectionProc serverServices env.socket c (s.answered env).world with
        | .error _ => none
        | .ok o =>
          if o.result.blocks = none ∧ o.result ≠ .disconnect then
            some (serveTurns current o.result [])
          else none

def quietRun (fuel : Nat) : List Environment → Server → Option (List (List (Turn Nat)) × Server)
  | [], s => some ([], s)
  | env :: envs, s =>
    match quietTurns env s, cacheServerProc fuel env s with
    | some turns, .ok s' => (quietRun fuel envs s').map fun r => (turns :: r.1, r.2)
    | _, _ => none

theorem quietTurns_round {s s' : Server} {env : Environment} {turns : List (Turn Nat)} {fuel : Nat}
    (hs : s.Sound) (h : quietTurns env s = some turns) (step : cacheServerProc fuel env s = .ok s') :
    s.Round turns s' := by
  unfold quietTurns at h
  split at h
  · rename_i hcur
    cases h
    exact .accepts env fuel (Or.inl hcur) step
  · rename_i current hcur
    split at h
    · rename_i hdue
      cases h
      exact .accepts env fuel (Or.inr hdue) step
    · rename_i hdue
      split at h
      · cases h
      · rename_i c hc
        split at h
        · cases h
        · rename_i o ho
          split at h
          · rename_i hquiet
            cases h
            have hvalid := connectionProc_valid (hs.valid current c hc) ho hquiet.2
            have hserves : s.Serves env current o [] ((s.answered env).after current o) none :=
              ⟨hcur, by simpa using hdue, ⟨c, hc, ho⟩, .quiet (if_pos rfl) hvalid.event⟩
            exact .serves fuel hserves
              ⟨hquiet.1, fun hd => absurd hd hquiet.2, fun hne => absurd rfl hne⟩ step
          · cases h

theorem quietRun_rounds {s s' : Server} {fuel : Nat} {envs : List Environment}
    {rounds : List (List (Turn Nat))} (hs : s.Sound)
    (h : quietRun fuel envs s = some (rounds, s')) : s.Rounds rounds s' := by
  induction envs generalizing s rounds with
  | nil =>
    cases h
    exact .nil
  | cons env envs ih =>
    unfold quietRun at h
    split at h
    · rename_i turns s₁ hturns hstep
      obtain ⟨⟨rest, s₂⟩, hrest, he⟩ := Option.map_eq_some_iff.mp h
      cases he
      exact .cons (quietTurns_round hs hturns hstep) (ih (cacheServerProc_sound hs hstep) hrest)
    · cases h

end Server

open Server

section
variable {hash : List UInt8 → Nat} {capacityBytes : Nat} {memory : Memory} {s s' : Server}
  {rounds : List (List (Turn Nat))} {xs : List Nat} {c : Nat}

/-- In a run whose rounds keep the schedule, the linked list and the cursor are always those of
the carousel that took the same turns. -/
theorem schedule_carousel (h : (cacheServerOpen hash capacityBytes memory).Rounds rounds s) :
    ∃ k, (⟨[], []⟩ : Carousel Nat).Run rounds.flatten k ∧ s.Carries k := by
  refine h.carries cacheServerOpen_sound ⟨⟨Linked.nil, fun i hi => ?_⟩, rfl, fun _ => rfl⟩
  cases hi

/-- Between two turns of an active connection no other connection finishes a second request. -/
theorem overtaken_once (hs : Kept hash capacityBytes memory s) (h : s.Rounds rounds s')
    (hx : s.Scheduled xs) (hc : c ∈ xs) (hturn : ∀ t ∈ rounds.flatten, t.who ≠ c) (x : Nat) :
    rounds.flatten.count (.completes x) ≤ 1 := by
  obtain ⟨k, rfl, hk⟩ := hx.carries
  obtain ⟨k', hrun, -⟩ := h.carries hs.wellFormed.1 hk
  exact hrun.count_completes_le hk.nodup hc hturn (h.diligent x)

/-- As long as nobody transfers anything, every active connection has its turn once in as many
rounds as there are, in the order of the list from the current one on. -/
theorem idleRounds_rotate (hs : Kept hash capacityBytes memory s) (h : s.Rounds rounds s')
    (hx : s.Scheduled xs) (hidle : ∀ turns ∈ rounds, ∃ i, turns = [.waits i])
    (hlength : rounds.length = xs.length) :
    ∃ p a, xs = p ++ a ∧ s.currentConnection = a.head? ∧
      rounds = (a ++ p).map (fun i => [.waits i]) ∧ s'.Scheduled xs ∧
      s'.currentConnection = s.currentConnection := by
  obtain ⟨⟨p, a⟩, rfl, hk⟩ := hx.carries
  obtain ⟨hrounds, hscheduled, hcursor⟩ := h.idle hs.wellFormed.1 hk hidle hlength
  exact ⟨p, a, rfl, hk.cursor, hrounds, hscheduled, hcursor⟩

end

/-- Two clients connect, and the first one sends the header of a `PING`. -/
def twoConnect : List Environment := [connects 0, connects 2000, receives 2000 [1, 0, 1, 4]]

/-- The first client is answered, and the second one finds nothing to read. -/
def twoTurns : List Environment := twoConnect ++ [sends 2000 1, receives 2000 []]

theorem schedule_carousel_two : ∃ s k, (⟨[], []⟩ : Carousel Nat).Run
    [.joins 0, .joins 1, .works 0, .completes 0, .waits 1] k ∧ Carries s k := by
  have hrun : ∃ r ∈ quietRun 1 twoTurns smallServer,
      r.1 = [[.joins 0], [.joins 1], [.works 0], [.completes 0], [.waits 1]] := by
    decide +kernel
  obtain ⟨⟨rounds, s⟩, hr, hrounds⟩ := hrun
  obtain ⟨k, hk, hcarries⟩ := schedule_carousel (quietRun_rounds cacheServerOpen_sound hr)
  have hturns : rounds = [[.joins 0], [.joins 1], [.works 0], [.completes 0], [.waits 1]] := hrounds
  rw [hturns] at hk
  exact ⟨s, k, hk, hcarries⟩

/-- The first client finishes its request while the second one waits. -/
theorem overtaken_once_ping : ∃ s s', Kept ByteArea.decodeLE 64 (fun _ _ => 0) s ∧
    s.Scheduled [0, 1] ∧ s.Rounds [[.completes 0]] s' ∧
      [Turn.completes 0].count (.completes 0) ≤ 1 := by
  have hrun : ∃ r ∈ quietRun 1 twoConnect smallServer, r.2.Scheduled [0, 1] ∧
      ∃ r' ∈ quietRun 1 [sends 2000 1] r.2, r'.1 = [[.completes 0]] := by
    decide +kernel
  obtain ⟨⟨rounds, s⟩, hr, hscheduled, ⟨rounds', s'⟩, hr', hrounds'⟩ := hrun
  have hturns : rounds' = [[.completes 0]] := hrounds'
  subst hturns
  have hrounds := quietRun_rounds cacheServerOpen_sound hr
  have hkept := hrounds.kept Kept.opened
  have hping := quietRun_rounds hkept.wellFormed.1 hr'
  exact ⟨s, s', hkept, hscheduled, hping,
    overtaken_once (c := 1) hkept hping hscheduled (by simp) (by simp [Turn.who]) 0⟩

/-- Neither client is ready. -/
theorem idleRounds_rotate_two : ∃ (s s' : Server) (p a : List Nat), Kept ByteArea.decodeLE 64 (fun _ _ => 0) s ∧
    [0, 1] = p ++ a ∧ s.currentConnection = a.head? ∧
      [[Turn.waits 0], [.waits 1]] = (a ++ p).map (fun i => [.waits i]) ∧ s'.Scheduled [0, 1] ∧
      s'.currentConnection = s.currentConnection := by
  have hrun : ∃ r ∈ quietRun 1 twoConnect smallServer, r.2.Scheduled [0, 1] ∧
      ∃ r' ∈ quietRun 1 [sends 2000 0, receives 2000 []] r.2, r'.1 = [[.waits 0], [.waits 1]] := by
    decide +kernel
  obtain ⟨⟨rounds, s⟩, hr, hscheduled, ⟨rounds', s'⟩, hr', hrounds'⟩ := hrun
  have hturns : rounds' = [[.waits 0], [.waits 1]] := hrounds'
  subst hturns
  have hrounds := quietRun_rounds cacheServerOpen_sound hr
  have hkept := hrounds.kept Kept.opened
  have hidle := quietRun_rounds hkept.wellFormed.1 hr'
  obtain ⟨p, a, h⟩ := idleRounds_rotate hkept hidle hscheduled (by simp) rfl
  exact ⟨s, s', p, a, hkept, h⟩

end CacheServer
