import CacheServer.Sharing.Delivery
import CacheServer.Sharing.Replies

/-!
# Requests take effect at an instant

Between the request and its answer there is an instant at which the answer is
that of the map from keys to values: a PUT goes into the map, a DELETE takes its
key out, and a GET reads it.
-/

namespace CacheServer

/-- The answer is that of some instant since the request was executed. -/
inductive Warrants (i : Nat) (before rest : List (Nat × Event)) (request : Request) :
    List UInt8 → Prop
  | acknowledged {answer : List UInt8} (other : request.type ≠ .get)
      (acknowledges : Acknowledges i rest request answer) : Warrants i before rest request answer
  | found {asked later : List (Nat × Event)} {key value : List UInt8} {entry : Option Pointer}
      (type : request.type = .get) (instant : rest = asked ++ (i, .lookedUp key entry) :: later)
      (stored : LastStored (before ++ (i, .executed request) :: asked) request.key value) :
      Warrants i before rest request (valueResponse value)
  | missed {asked later : List (Nat × Event)} {key : List UInt8} {entry : Option Pointer}
      (type : request.type = .get) (instant : rest = asked ++ (i, .lookedUp key entry) :: later)
      (absent : ∀ value,
        ¬ LastStored (before ++ (i, .executed request) :: asked) request.key value) :
      Warrants i before rest request [ResponseType.notFound.toByte]

section
variable {history before rest : List (Nat × Event)} {i : Nat} {request : Request}

theorem sentBy_append (i : Nat) (xs ys : List (Nat × Event)) :
    sentBy i (xs ++ ys) = sentBy i xs ++ sentBy i ys := by
  induction xs with
  | nil => rfl
  | cons x xs ih =>
    obtain ⟨j, event⟩ := x
    cases event with
    | sent bytes =>
      simp only [List.cons_append, sentBy]
      split
      · rw [ih, List.append_assoc]
      · exact ih
    | received | executed | lookedUp | allocated | stored | malloced | freed | released => exact ih

/-- Where the value of a reading comes from: the last lookup, if there is one. -/
def ReadAt (i : Nat) (before rest : List (Nat × Event)) (request : Request)
    (value : Option (List UInt8)) : Prop :=
  (∀ k p, (i, .lookedUp k p) ∉ rest) ∨ ∃ asked k p later,
    rest = asked ++ (i, .lookedUp k p) :: later ∧
      value = (ledger (before ++ (i, .executed request) :: asked)).stored request.key

theorem ReadAt.later {x : Nat × Event} {value : Option (List UInt8)}
    (h : ReadAt i before rest request value) (hx : ∀ k p, x ≠ (i, .lookedUp k p)) :
    ReadAt i before (rest ++ [x]) request value := by
  rcases h with hnone | ⟨asked, k, p, later, hrest, hvalue⟩
  · refine Or.inl fun k p hmem => ?_
    rcases List.mem_append.mp hmem with hmem | hmem
    · exact hnone k p hmem
    · exact hx k p (List.mem_singleton.mp hmem).symm
  · exact Or.inr ⟨asked, k, p, later ++ [x], by rw [hrest]; simp, hvalue⟩

theorem reading_still (htype : request.type = .get) (hstill : Still i rest) :
    ∃ r, (ledger (before ++ (i, .executed request) :: rest)).reading i = some r ∧
      r.key = request.key ∧ r.sent = sentBy i rest ∧ ReadAt i before rest request r.value := by
  induction rest using List.reverseRecOn with
  | nil =>
    obtain ⟨type, key, value⟩ := request
    cases htype
    refine ⟨⟨key, none, []⟩, ?_, rfl, rfl, Or.inl fun k p hmem => by cases hmem⟩
    rw [ledger, List.foldl_append]
    exact Function.update_self ..
  | append_singleton rest x ih =>
    obtain ⟨r, hreading, hkey, hsent, hread⟩ :=
      ih fun z hz => hstill z (List.mem_append_left _ hz)
    have hnext : ledger (before ++ (i, .executed request) :: (rest ++ [x])) =
        (ledger (before ++ (i, .executed request) :: rest)).next x := by
      rw [ledger, ← List.cons_append, ← List.append_assoc, List.foldl_append]
      rfl
    rw [hnext, sentBy_append]
    obtain ⟨j, event⟩ := x
    by_cases hji : j = i
    · subst hji
      have hevent := hstill (j, event) (List.mem_append_right _ (List.mem_singleton.mpr rfl)) rfl
      cases event with
      | executed request' => exact absurd rfl (hevent request' []).1
      | received bytes => exact absurd rfl (hevent request bytes).2
      | sent bytes =>
        refine ⟨{ r with sent := r.sent ++ bytes }, ?_, hkey, ?_, hread.later (by simp)⟩
        · refine (Function.update_self ..).trans ?_
          rw [hreading]
          rfl
        · simp only [hsent, sentBy, if_true, List.append_nil]
      | lookedUp key entry =>
        refine ⟨{ r with value := (ledger (before ++ (j, .executed request) :: rest)).stored r.key }, ?_,
          hkey, hsent.trans (List.append_nil _).symm, Or.inr ⟨rest, key, entry, [], rfl, ?_⟩⟩
        · refine (Function.update_self ..).trans ?_
          rw [hreading]
          rfl
        · rw [hkey]
      | allocated | stored | malloced | freed | released =>
        exact ⟨r, hreading, hkey, hsent.trans (List.append_nil _).symm, hread.later (by simp)⟩
    · refine ⟨r, ?_, hkey, ?_, hread.later (by simp [hji])⟩
      · rw [next_reading_other _ (Ne.symm hji)]
        exact hreading
      · rw [sentBy_other fun hj => absurd hj hji]
        exact hsent.trans (List.append_nil _).symm

end

namespace Connections

section
variable {s : Connections} {es : List Slot} {i : Nat} {before rest : List (Nat × Event)}
  {request : Request}

theorem Delivers.linearized (h : s.Delivers es) (hreplied : s.Replied)
    (hhistory : s.history = before ++ (i, .executed request) :: rest) (hstill : Still i rest) :
    ∃ answer, Warrants i before rest request answer ∧ sentBy i rest <+: answer ∧
      ∀ c, s.get i = some c → c.state.receiving = true → sentBy i rest = answer := by
  obtain ⟨c, hreplies, hself⟩ := hreplied.replies i
  obtain ⟨r, hreply, rfl, hsent, hstored, hlooked⟩ := reply_still hhistory hstill
  rw [hreply] at hreplies
  by_cases htype : r.request.type = .get
  · obtain ⟨g, hreading, hkey, hread, hat⟩ := reading_still htype hstill
    rw [← hhistory] at hreading
    have hlast : Warrants i before rest r.request g.response := by
      rcases hat with hnone | ⟨asked, key, entry, later, hrest, hvalue⟩
      · obtain ⟨k, p, hmem⟩ := hlooked.mp (hreplies.lookedUp htype)
        exact absurd hmem (hnone k p)
      · unfold Reading.response
        split
        · rename_i hnotFound
          refine .missed htype hrest fun value hstored => ?_
          rw [← ledger_stored_iff, ← hvalue, hnotFound] at hstored
          cases hstored
        · rename_i value hfound
          refine .found htype hrest (ledger_stored_iff.mp ?_)
          rw [← hvalue, hfound]
    have hi : s.reading i = some g := hreading
    refine ⟨g.response, hlast, ?_, fun c' hc' hs => ?_⟩
    · rw [← hread]
      exact h.sent i g hi
    · have hserving := h.serving i c' hc'
      rw [hi] at hserving
      rw [← hread]
      cases hserving with
      | answered state sent => exact sent
      | awaiting state | notFound state | header state | body state =>
        rw [state] at hs
        cases hs
  · refine ⟨r.response, .acknowledged htype (r.acknowledges htype hstored), ?_, fun c' hc' hs => ?_⟩
    · rw [← hsent]
      exact hreplies.prefix htype
    · cases hself c' hc'
      rw [← hsent]
      exact hreplies.complete htype hs

end

end Connections

end CacheServer
