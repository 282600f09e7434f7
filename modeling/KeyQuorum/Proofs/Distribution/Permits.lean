import Mathlib.Tactic.Lemma
import KeyQuorum.Distribution.Permits

/-!
What happens to permits and tickets.

A permit that is not in somebody's hands is idle: it is free, or it is reserved for a ticket
that has not taken it up yet. Only taking a permit and giving one back change how many there
are, so requests and withdrawals can neither lose a permit nor make one.
-/

namespace KeyQuorum.Permits

variable {p q : Permits} {t : Nat}

/-- The permits that nobody holds. -/
def idle (p : Permits) : Nat := p.free + p.granted.length

/-- The tickets whose request is still open. -/
def tickets (p : Permits) : List Nat := p.queue ++ p.granted

/-- Nobody waits while a permit is free. -/
def Prompt (p : Permits) : Prop := p.queue ≠ [] → p.free = 0

lemma take?_eq_some (h : p.take? = some q) :
    q.free + 1 = p.free ∧ q.queue = p.queue ∧ q.granted = p.granted := by
  unfold take? at h
  split at h
  · simp at h
  · next n hn =>
    obtain rfl := Option.some.inj h
    exact ⟨hn.symm, rfl, rfl⟩

lemma takeUp?_eq_some (h : p.takeUp? t = some q) :
    t ∈ p.granted ∧ q = { p with granted := p.granted.erase t } := by
  unfold takeUp? at h
  split at h
  · next ht => exact ⟨ht, (Option.some.inj h).symm⟩
  · simp at h

lemma takeUp?_eq_none (h : p.takeUp? t = none) : t ∉ p.granted := by
  intro ht
  simp [takeUp?, ht] at h

/-! ### Counting -/

lemma idle_take? (h : p.take? = some q) : q.idle + 1 = p.idle := by
  obtain ⟨hf, -, hg⟩ := take?_eq_some h
  unfold idle
  rw [hg]
  omega

@[simp] lemma idle_request (p : Permits) (t : Nat) : (p.request t).idle = p.idle := by
  unfold request idle
  split
  · simp
  · simp only [List.length_append, List.length_singleton]
    omega

@[simp] lemma idle_release (p : Permits) : p.release.idle = p.idle + 1 := by
  unfold release idle
  split <;> simp <;> omega

lemma idle_takeUp? (h : p.takeUp? t = some q) : q.idle + 1 = p.idle := by
  obtain ⟨ht, rfl⟩ := takeUp?_eq_some h
  have hpos : 0 < p.granted.length := List.length_pos_of_mem ht
  simp only [idle, List.length_erase_of_mem ht]
  omega

@[simp] lemma idle_withdraw (p : Permits) (t : Nat) : (p.withdraw t).idle = p.idle := by
  unfold withdraw
  split
  · next q hq => rw [idle_release, idle_takeUp? hq]
  · rfl

lemma idle_pos (h : t ∈ p.granted) : 0 < p.idle := by
  have := List.length_pos_of_mem h
  unfold idle
  omega

/-! ### Nobody waits for a free permit -/

lemma Prompt.take? (hp : p.Prompt) (h : p.take? = some q) : q.Prompt := by
  obtain ⟨hf, hq, -⟩ := take?_eq_some h
  intro hne
  rw [hq] at hne
  have := hp hne
  omega

lemma Prompt.request (hp : p.Prompt) (t : Nat) : (p.request t).Prompt := by
  unfold Permits.request
  split
  · next hf => exact fun _ => hf
  · next n hf =>
    intro hne
    have := hp hne
    omega

lemma Prompt.release (hp : p.Prompt) : p.release.Prompt := by
  unfold Permits.release
  split
  · next hq => exact fun hne => absurd hq hne
  · next u rest hq => exact fun _ => hp (by simp [hq])

lemma Prompt.takeUp? (hp : p.Prompt) (h : p.takeUp? t = some q) : q.Prompt := by
  obtain ⟨-, rfl⟩ := takeUp?_eq_some h
  exact hp

lemma Prompt.withdraw (hp : p.Prompt) (t : Nat) : (p.withdraw t).Prompt := by
  unfold Permits.withdraw
  split
  · next q hq => exact (hp.takeUp? hq).release
  · intro hne
    refine hp fun hnil => hne ?_
    simp [hnil]

/-! ### Tickets -/

lemma tickets_request (p : Permits) (t : Nat) : (p.request t).tickets.Perm (t :: p.tickets) := by
  unfold request tickets
  split
  · simp
  · rw [← List.append_assoc]
    exact List.perm_append_singleton t _

lemma tickets_release (p : Permits) : p.release.tickets.Perm p.tickets := by
  unfold release tickets
  split
  · next hq => rw [hq]
  · next u rest hq =>
    rw [hq, ← List.append_assoc]
    exact List.perm_append_singleton u _

lemma tickets_takeUp? (h : p.takeUp? t = some q) : p.tickets.Perm (t :: q.tickets) := by
  obtain ⟨ht, rfl⟩ := takeUp?_eq_some h
  unfold tickets
  exact ((List.perm_cons_erase ht).append_left _).trans List.perm_middle

lemma tickets_withdraw (p : Permits) (t : Nat) :
    (p.withdraw t).tickets.Perm (p.tickets.erase t) := by
  unfold withdraw
  cases h : p.takeUp? t with
  | some q =>
    -- a permit that is reserved already goes to the next in the queue, who waits on
    have herase := (tickets_takeUp? h).erase t
    rw [List.erase_cons_head] at herase
    exact (tickets_release q).trans herase.symm
  | none =>
    have hgranted := takeUp?_eq_none h
    simp only [tickets]
    rw [List.erase_append]
    split
    · exact List.Perm.refl _
    · next hqueue => rw [List.erase_of_not_mem hqueue, List.erase_of_not_mem hgranted]

end KeyQuorum.Permits
