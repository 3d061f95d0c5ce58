import WorkQueue.Number.Word
import WorkQueue.Proofs.Store.Calls

/-!
# The members of a group

A group has a generation and members. Whoever joins, leaves or is found to be late makes a new
generation, and a generation is never used twice, so it stands for one list of members. A heartbeat
tells the membership behind it.

## Main definitions

* `Membership.Later`: a membership later on
* `GroupStore`: a log store whose groups can be seen from outside

## Main statements

* `Reached.roster_later`: a generation stands for one list of members
* `Reached.roster_eq`: groups do not disturb each other
-/

namespace WorkQueue

open StoreView

/-- A membership later on: the same one, or one of a later generation. -/
def Membership.Later (m m' : Membership) : Prop := m' = m ∨ m.generation < m'.generation

namespace Membership.Later

variable {m m' m'' : Membership}

theorem refl (m : Membership) : m.Later m := .inl rfl

theorem generation_le (h : m.Later m') : m.generation ≤ m'.generation := by
  rcases h with rfl | hlt
  · exact Nat.le_refl _
  · exact Nat.le_of_lt hlt

theorem trans (h : m.Later m') (h' : m'.Later m'') : m.Later m'' := by
  rcases h' with rfl | hlt
  · exact h
  · exact .inr (Nat.lt_of_le_of_lt h.generation_le hlt)

/-- A generation stands for one list of members. -/
theorem eq_of_generation_eq (h : m.Later m') (heq : m'.generation = m.generation) : m' = m := by
  rcases h with rfl | hlt
  · rfl
  · omega

end Membership.Later

/-- Does a call join or leave a group, or tell of its members? -/
def StoreCall.Concerns (group topic : String) : StoreCall → Prop
  | .join _ g t => g = group ∧ t = topic
  | .heartbeat _ g t _ _ => g = group ∧ t = topic
  | .leave g t _ => g = group ∧ t = topic
  | _ => False

/-- The member that makes a call is one of `valid`. -/
def StoreCall.By (valid : Nat → Prop) : StoreCall → Prop
  | .heartbeat _ _ _ member _ => valid member
  | .leave _ _ member => valid member
  | _ => True

/-- A log store whose groups can be seen from outside. -/
class GroupStore (σ : Type) [LogStore σ] extends LawfulStore σ where
  /-- The members of a group. Generations are counted without an end. -/
  roster : σ → String → String → Membership
  /-- The states whose groups are in order. -/
  Orderly : σ → Prop
  /-- The numbers that can be given to members. -/
  Valid : Nat → Prop
  sound_of_orderly (s : σ) (h : Orderly s) : Sound s
  ascending_roster (s : σ) (h : Orderly s) (group topic : String) :
    (roster s group topic).members.Pairwise (· < ·)
  orderly_on (call : StoreCall) (s : σ) (h : Orderly s) (hby : call.By Valid) : Orderly (call.on s)
  roster_on (call : StoreCall) (s : σ) (h : Orderly s) (hby : call.By Valid)
    (group topic : String) : (roster s group topic).Later (roster (call.on s) group topic) ∧
      (¬ call.Concerns group topic → roster (call.on s) group topic = roster s group topic)
  join_valid (now : Nat) (group topic : String) (s : σ) (h : Orderly s) :
    Ensures (LogStore.join now group topic) s fun result s' =>
      (∀ id, result = .ok id → Valid id) ∧
        ∀ id ∈ (roster s' group topic).members,
          id ∈ (roster s group topic).members ∨ result = .ok id
  /-- The generation that a heartbeat tells is a word. -/
  heartbeat_tells (now : Nat) (group topic : String) (member timeout : Nat) (s : σ) (h : Orderly s)
    (hmember : Valid member) :
    Ensures (LogStore.heartbeat now group topic member timeout) s fun result s' =>
      (∀ m, result = .ok m → m.members = (roster s' group topic).members ∧
        ((roster s' group topic).generation ≤ maxWord64 →
          m.generation = (roster s' group topic).generation)) ∧
        ∀ id ∈ (roster s' group topic).members,
          id = member ∨ id ∈ (roster s group topic).members
  leave_members (group topic : String) (member : Nat) (s : σ) (h : Orderly s)
    (hmember : Valid member) :
    Ensures (LogStore.leave group topic member) s fun _ s' =>
      ∀ id ∈ (roster s' group topic).members, id ≠ member ∧ id ∈ (roster s group topic).members

open GroupStore

section

variable {σ : Type} [LogStore σ] [GroupStore σ] {s s' : σ} {allowed : StoreCall → Prop}

/-- A call of members whose numbers have been given out. -/
def Fair (σ : Type) [LogStore σ] [GroupStore σ] (call : StoreCall) : Prop := call.By (Valid σ)

/-- It is enough that fair calls to an orderly store keep something. -/
theorem Reached.keeps_of_orderly {I : σ → Prop} (h : Reached allowed s s') (hs : Orderly s)
    (hfair : ∀ call, allowed call → Fair σ call) (hI : I s)
    (hcall : ∀ s call, Orderly s → I s → allowed call → I (call.on s)) : Orderly s' ∧ I s' := by
  refine h.keeps (I := fun s' => Orderly s' ∧ I s') ⟨hs, hI⟩ ?_
  intro s₁ call ⟨hs₁, hI₁⟩ hallowed
  exact ⟨orderly_on call s₁ hs₁ (hfair call hallowed), hcall s₁ call hs₁ hI₁ hallowed⟩

/-- Whatever members do, a generation stands for one list of members. -/
theorem Reached.roster_later (h : Reached allowed s s') (hs : Orderly s)
    (hfair : ∀ call, allowed call → Fair σ call) (group topic : String) :
    Orderly s' ∧ (roster s group topic).Later (roster s' group topic) := by
  refine h.keeps_of_orderly (I := fun s' => (roster s group topic).Later (roster s' group topic)) hs
    hfair (.refl _) ?_
  intro s₁ call horderly hlater hcall
  exact hlater.trans (roster_on call s₁ horderly (hfair call hcall) group topic).1

/-- Calls of other groups change nothing. -/
theorem Reached.roster_eq (h : Reached allowed s s') (hs : Orderly s)
    (hfair : ∀ call, allowed call → Fair σ call) {group topic : String}
    (hother : ∀ call, allowed call → ¬ call.Concerns group topic) :
    roster s' group topic = roster s group topic := by
  refine (h.keeps_of_orderly (I := fun s' => roster s' group topic = roster s group topic) hs hfair
    rfl ?_).2
  intro s₁ call horderly heq hcall
  have hroster := roster_on call s₁ horderly (hfair call hcall) group topic
  exact (hroster.2 (hother call hcall)).trans heq

end

end WorkQueue
