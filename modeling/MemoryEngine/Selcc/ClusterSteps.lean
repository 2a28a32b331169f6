import MemoryEngine.Selcc.Cluster
import MemoryEngine.Selcc.HandleSteps

/-! What a step of the cluster does, case by case.

A handle of the cluster sees a run of the handle on its own, so what holds of every run of a
handle holds of every handle of the cluster. -/
namespace MemoryEngine.Selcc

variable {n m : ℕ} {α : Type}

namespace Cluster

/-- `c.step event = some after`, with one constructor for each path. -/
inductive Steps (c : Cluster n m α) : Event n m α → Cluster n m α → Prop where
  | thread (slot action after effects)
      (hact : (c.handles slot).act slot ⟨c.word, c.memory⟩ action = some (after, effects))
      (hdrained : action.synchronous = true → c.drained slot = true) :
      Steps c (.thread slot action) ((c.setHandle slot after).applyAll effects)
  | lookupInsert (slot) (hnode : c.notInTable slot.1) (hfree : (c.handles slot).placement = .free) :
      Steps c (.lookupInsert slot) (c.setHandle slot { c.handles slot with placement := .table })
  | receive (index target request position locked accepted)
      (hindex : c.requests[index]? = some (target, request))
      (htable : (c.handles (target, position)).placement = .table)
      (hacpt : (c.handles (target, position)).accept request locked = some accepted) :
      Steps c (.receive index (some position) locked)
        ({ c with requests := c.requests.eraseIdx index }.setHandle (target, position) accepted)
  | receiveAbsent (index target request locked)
      (hindex : c.requests[index]? = some (target, request)) (hnode : c.notInTable target) :
      Steps c (.receive index none locked)
        ({ c with requests := c.requests.eraseIdx index }.applyAll (Handle.decline request))
  | arrive (index reply) (hindex : c.replies[index]? = some reply) :
      Steps c (.arrive index)
        ({ c with replies := c.replies.eraseIdx index }.setHandle reply.call.slot
          ((c.handles reply.call.slot).arrive reply))
  | execute (index operation) (hindex : c.posted[index]? = some operation)
      (hfirst : ∀ earlier ∈ c.posted.take index, earlier.queue ≠ operation.queue) :
      Steps c (.execute index) ({ c with posted := c.posted.eraseIdx index }.perform operation.work)
  | reuse (slot content) (hfree : (c.handles slot).placement = .free) :
      Steps c (.reuse slot content) (c.setHandle slot { c.handles slot with data := content })

variable {c after : Cluster n m α} {event : Event n m α} {effects : List (Effect n m α)}

theorem step_cases (hstep : c.step event = some after) : c.Steps event after := by
  cases event <;> simp only [step] at hstep
  case thread slot action =>
    split_ifs at hstep with hdrained
    obtain ⟨⟨changed, effects⟩, hact, rfl⟩ := Option.map_eq_some_iff.1 hstep
    exact .thread slot action changed effects hact (by simpa using hdrained)
  case lookupInsert slot =>
    split_ifs at hstep with hguard
    cases hstep
    exact .lookupInsert slot hguard.1 hguard.2
  case receive index found locked =>
    split at hstep
    case h_1 target request hindex =>
      split at hstep
      case h_1 position =>
        split_ifs at hstep with htable
        obtain ⟨accepted, hacpt, rfl⟩ := Option.map_eq_some_iff.1 hstep
        exact .receive index target request position locked accepted hindex htable hacpt
      case h_2 =>
        split_ifs at hstep with hnode
        cases hstep
        exact .receiveAbsent index target request locked hindex hnode
    case h_2 => cases hstep
  case arrive index =>
    split at hstep
    case h_1 reply hindex =>
      cases hstep
      exact .arrive index reply hindex
    case h_2 => cases hstep
  case execute index =>
    split at hstep
    case h_1 operation hindex =>
      split_ifs at hstep with hfirst
      cases hstep
      exact .execute index operation hindex (by simpa using hfirst)
    case h_2 => cases hstep
  case reuse slot content =>
    split_ifs at hstep with hfree
    cases hstep
    exact .reuse slot content hfree

def initial (c : Cluster n m α) : Prop := ∃ content data, c = start content data

theorem setHandle_self (slot : Slot n m) (h : Handle n m α) :
    (c.setHandle slot h).handles slot = h :=
  Function.update_self ..

theorem setHandle_of_ne {slot other : Slot n m} (h : Handle n m α) (hne : other ≠ slot) :
    (c.setHandle slot h).handles other = c.handles other :=
  Function.update_of_ne hne ..

theorem applyAll_append (effects others : List (Effect n m α)) :
    c.applyAll (effects ++ others) = (c.applyAll effects).applyAll others :=
  List.foldl_append ..

/-- Only the reply `pending` is written to another handle at once. -/
def prompt (effects : List (Effect n m α)) : Prop :=
  ∀ effect ∈ effects, ∀ call command, effect ≠ .pending call command

theorem applyAll_handles (hprompt : prompt effects) : (c.applyAll effects).handles = c.handles := by
  induction effects generalizing c with
  | nil => rfl
  | cons effect effects ih =>
    have hrest : prompt effects := fun other hother => hprompt other (List.mem_cons_of_mem _ hother)
    refine (ih hrest).trans ?_
    cases effect
    case pending call command => exact absurd rfl (hprompt _ List.mem_cons_self call command)
    all_goals rfl

section Projection

variable {holds : Slot n m → Handle n m α → Prop}

theorem setHandle_forall (hall : ∀ slot, holds slot (c.handles slot)) {slot : Slot n m}
    {h : Handle n m α} (hnew : holds slot h) (other : Slot n m) :
    holds other ((c.setHandle slot h).handles other) := by
  by_cases hslot : other = slot
  · subst hslot
    rw [setHandle_self]
    exact hnew
  · rw [setHandle_of_ne h hslot]
    exact hall other

theorem applyAll_forall (hpend : ∀ slot h, holds slot h → holds slot h.arrivePending)
    (hall : ∀ slot, holds slot (c.handles slot)) (slot : Slot n m) :
    holds slot ((c.applyAll effects).handles slot) := by
  induction effects generalizing c with
  | nil => exact hall slot
  | cons effect effects ih =>
    refine ih ?_
    cases effect
    case pending call command => exact setHandle_forall hall (hpend _ _ (hall _))
    all_goals exact hall

theorem step_forall (hstep : c.step event = some after) (hall : ∀ slot, holds slot (c.handles slot))
    (hthr : ∀ slot action, event = .thread slot action → ∀ changed effects, (c.handles slot).act
      slot ⟨c.word, c.memory⟩ action = some (changed, effects) → holds slot changed)
    (hins : ∀ slot, event = .lookupInsert slot → (c.handles slot).placement = .free → holds slot
      { c.handles slot with placement := .table })
    (hpass : ∀ slot h seen after, seen.passive = true → seen ≠ .insert → holds slot h → h.step
      slot seen = some after → holds slot after)
    (slot : Slot n m) : holds slot (after.handles slot) := by
  have hpend : ∀ slot h, holds slot h → holds slot h.arrivePending :=
    fun slot h hh => hpass slot h .pending _ rfl (by simp) hh rfl
  cases step_cases hstep with
  | thread slot action changed effects hact =>
    exact applyAll_forall hpend
      (setHandle_forall hall (hthr slot action rfl changed effects hact)) _
  | lookupInsert slot hnode hfree => exact setHandle_forall hall (hins slot rfl hfree) _
  | receive index target request position locked accepted hindex htable hacpt =>
    refine @setHandle_forall _ _ _ { c with requests := c.requests.eraseIdx index } _ hall _ _ ?_ _
    exact hpass _ _ (.request request locked) _ rfl (by simp) (hall _)
      (by simp [Handle.step, htable, hacpt])
  | receiveAbsent index target request locked =>
    exact @applyAll_forall _ _ _ { c with requests := c.requests.eraseIdx index } _ _ hpend
      hall _
  | arrive index reply =>
    refine @setHandle_forall _ _ _ { c with replies := c.replies.eraseIdx index } _ hall _ _ ?_ _
    exact hpass _ _ (.reply reply) _ rfl (by simp) (hall _) rfl
  | execute index operation =>
    rcases operation with ⟨_, work⟩
    cases work <;> exact hall slot
  | reuse slot content hfree =>
    refine setHandle_forall hall ?_ _
    exact hpass _ _ (.reuse content) _ rfl (by simp) (hall _) (by simp [Handle.step, hfree])

end Projection

/-- What at most one handle of each node has, and no handle of the node into which one is
inserted. -/
theorem unique_step {holds : Handle n m α → Prop} (hstep : c.step event = some after)
    (hunique : ∀ node p q, holds (c.handles (node, p)) → holds (c.handles (node, q)) → p = q)
    (hins : ∀ slot, event = .lookupInsert slot → ∀ p, ¬ holds (c.handles (slot.1, p)))
    (hback : (∀ slot, event ≠ .lookupInsert slot) → ∀ slot, holds (after.handles slot) →
      holds (c.handles slot)) (node : Fin n) (p q : Fin m) (hp : holds (after.handles (node, p)))
    (hq : holds (after.handles (node, q))) : p = q := by
  by_cases hevent : ∃ slot, event = .lookupInsert slot
  · obtain ⟨slot, rfl⟩ := hevent
    cases step_cases hstep with
    | lookupInsert _ hnode hfree =>
      have hslot : ∀ position, holds ((c.setHandle slot
          { c.handles slot with placement := .table }).handles (node, position)) →
            (node, position) = slot ∨ holds (c.handles (node, position)) ∧ node ≠ slot.1 := by
        intro position hposn
        by_cases hsame : (node, position) = slot
        · exact .inl hsame
        · rw [setHandle_of_ne _ hsame] at hposn
          refine .inr ⟨hposn, ?_⟩
          rintro rfl
          exact hins slot rfl position hposn
      rcases hslot p hp with rfl | ⟨hp, hne⟩
      · rcases hslot q hq with hsame | ⟨-, hne⟩
        · exact (Prod.mk.inj hsame).2.symm
        · exact absurd rfl hne
      · rcases hslot q hq with rfl | ⟨hq, -⟩
        · exact absurd rfl hne
        · exact hunique node p q hp hq
  · push Not at hevent
    exact hunique node p q (hback hevent _ hp) (hback hevent _ hq)

theorem handle_reachable {allowed : Cluster n m α → Event n m α → Prop}
    {allowedHere : Handle n m α → HandleEvent n m α → Prop}
    (hact : ∀ c slot action remote, allowed c (.thread slot action) →
      allowedHere (c.handles slot) (.act remote action))
    (hpass : ∀ h event, event.passive = true → allowedHere h event)
    (hc : TransitionSystem.Reachable step allowed initial c) (slot : Slot n m) :
    TransitionSystem.Reachable (Handle.step slot) allowedHere (fun h => ∃ data, h = .fresh data)
      (c.handles slot) := by
  revert slot
  refine @TransitionSystem.Reachable.invariant _ _ _ _ _ c (fun c => ∀ slot,
    TransitionSystem.Reachable (Handle.step slot) allowedHere (fun h => ∃ data, h = .fresh data)
      (c.handles slot)) ?_ ?_ hc
  · rintro c ⟨content, data, rfl⟩ slot
    exact .start ⟨data slot, rfl⟩
  · intro c event after hall hallow hstep
    refine step_forall hstep hall ?_ ?_ ?_
    · rintro slot action rfl changed effects hchgd
      exact (hall slot).next (hact c slot action ⟨c.word, c.memory⟩ hallow)
        (by simp [Handle.step, hchgd])
    · rintro slot rfl hfree
      exact (hall slot).next (hpass _ .insert rfl) (by simp [Handle.step, hfree])
    · intro slot h event after hevent _ hh hnext
      exact hh.next (hpass _ _ hevent) hnext

end Cluster

end MemoryEngine.Selcc
