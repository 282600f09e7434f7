import Mathlib.Logic.Relation
import Mathlib.Tactic.Lemma
import KeyQuorum.Proofs.Distribution.SmallSteps

/-!
How the standings of the attempts tally with the admission and with the miner's turn.

The slots that are held are those of the attempts that have a share, the tickets are those of
the attempts that wait, and acceptances and failures are as many as the attempts that ended so.
Both halves of the tally are kept by every small step.
-/

namespace KeyQuorum

namespace Standing

def share? : Standing → Option KeyShare
  | .holding s | .ready s | .mining s | .sent s => some s
  | _ => none

def isQueued : Standing → Bool
  | .queued => true
  | _ => false

def isReady : Standing → Bool
  | .ready _ => true
  | _ => false

def isMining : Standing → Bool
  | .mining _ => true
  | _ => false

def hasEnded : Standing → Bool
  | .ended _ => true
  | _ => false

def isAccepted : Standing → Bool
  | .ended .accepted => true
  | _ => false

def isFailed : Standing → Bool
  | .ended (.failed _) => true
  | _ => false

lemma isAccepted_of_live {x : Standing} (h : x.hasEnded = false) : x.isAccepted = false := by
  cases x with
  | ended how => simp [hasEnded] at h
  | _ => rfl

lemma isFailed_of_live {x : Standing} (h : x.hasEnded = false) : x.isFailed = false := by
  cases x with
  | ended how => simp [hasEnded] at h
  | _ => rfl

end Standing

variable {l : List Standing} {i : Nat} {x y : Standing}

lemma getElem?_set_of_some (hx : l[i]? = some x) (y : Standing) (j : Nat) :
    (l.set i y)[j]? = if j = i then some y else l[j]? := by
  obtain ⟨hi, -⟩ := List.getElem?_eq_some_iff.mp hx
  rw [List.getElem?_set]
  by_cases hj : j = i
  · subst hj; simp [hi]
  · simp [hj, Ne.symm hj]

lemma countP_set (hx : l[i]? = some x) (y : Standing) (p : Standing → Bool) :
    (l.set i y).countP p + (if p x then 1 else 0) = l.countP p + (if p y then 1 else 0) := by
  obtain ⟨hi, rfl⟩ := List.getElem?_eq_some_iff.mp hx
  have hle : (if p l[i] then 1 else 0) ≤ l.countP p := List.boole_getElem_le_countP hi
  rw [List.countP_set hi]
  omega

/-! ### Tickets and slots by standing -/

/-- The open tickets are those of the attempts at the given standings, one each. -/
structure Listed (p : Permits) (q : Standing → Bool) (l : List Standing) : Prop where
  nodup : p.tickets.Nodup
  mem : ∀ j, j ∈ p.tickets ↔ ∃ z, l[j]? = some z ∧ q z = true

namespace Listed

variable {p p' : Permits} {q : Standing → Bool}

lemma keep (h : Listed p q l) (hp : p'.tickets.Perm p.tickets) (hx : l[i]? = some x)
    (hqx : q x = false) (hqy : q y = false) : Listed p' q (l.set i y) := by
  refine ⟨hp.nodup_iff.mpr h.nodup, fun j => ?_⟩
  rw [hp.mem_iff, h.mem, getElem?_set_of_some hx]
  by_cases hj : j = i
  · subst hj; simp [hx, hqx, hqy]
  · simp [hj]

lemma enter (h : Listed p q l) (hp : p'.tickets.Perm (i :: p.tickets)) (hx : l[i]? = some x)
    (hqx : q x = false) (hqy : q y = true) : Listed p' q (l.set i y) := by
  have hi : i ∉ p.tickets := by
    rw [h.mem]
    simp [hx, hqx]
  refine ⟨hp.nodup_iff.mpr (List.nodup_cons.mpr ⟨hi, h.nodup⟩), fun j => ?_⟩
  rw [hp.mem_iff, List.mem_cons, h.mem, getElem?_set_of_some hx]
  by_cases hj : j = i
  · subst hj; simp [hqy]
  · simp [hj]

lemma leave (h : Listed p q l) (hp : p.tickets.Perm (i :: p'.tickets)) (hx : l[i]? = some x)
    (hqy : q y = false) : Listed p' q (l.set i y) := by
  have hn := List.nodup_cons.mp (hp.nodup_iff.mp h.nodup)
  refine ⟨hn.2, fun j => ?_⟩
  have hm := h.mem j
  rw [hp.mem_iff, List.mem_cons] at hm
  rw [getElem?_set_of_some hx]
  by_cases hj : j = i
  · subst hj; simp [hqy, hn.1]
  · simpa [hj] using hm

lemma granted_eq_nil (h : Listed p q l)
    (hn : ∀ (j : Nat) (z : Standing), l[j]? = some z → q z = true → j ∉ p.granted) :
    p.granted = [] := by
  refine List.eq_nil_iff_forall_not_mem.mpr fun j hj => ?_
  obtain ⟨z, hz, hqz⟩ := (h.mem j).mp (List.mem_append_right _ hj)
  exact hn j z hz hqz hj

lemma not_waiting (h : Listed p q l) (hp : p.Prompt) (hg : p.granted = []) (hfree : 0 < p.free)
    (hx : l[i]? = some x) : q x = false := by
  have hqueue : p.queue = [] := by
    by_cases hne : p.queue = []
    · exact hne
    · have := hp hne
      omega
  refine Bool.eq_false_iff.mpr fun hqx => ?_
  have hi : i ∈ p.tickets := (h.mem i).mpr ⟨x, hx, hqx⟩
  rw [Permits.tickets, hqueue, hg] at hi
  simp at hi

end Listed

/-- The slots that are held are those of the attempts that have a share. -/
def Holds (a : Admission KeyShare (PublicKey × String)) (l : List Standing) : Prop :=
  ∀ j s, (j, s) ∈ a.held ↔ ∃ z, l[j]? = some z ∧ z.share? = some s

namespace Holds

variable {a b : Admission KeyShare (PublicKey × String)} {s : KeyShare}

lemma notMem (h : Holds a l) (hx : l[i]? = some x) (hs : x.share? = none) :
    i ∉ a.held.map Prod.fst := by
  rintro hm
  obtain ⟨⟨j, s⟩, hjs, rfl⟩ := List.mem_map.mp hm
  obtain ⟨z, hz, hzs⟩ := (h j s).mp hjs
  rw [hx] at hz
  obtain rfl := Option.some.inj hz
  rw [hs] at hzs
  simp at hzs

lemma keep (h : Holds a l) (hb : b.held = a.held) (hx : l[i]? = some x)
    (hs : y.share? = x.share?) : Holds b (l.set i y) := by
  intro j t
  rw [hb, h, getElem?_set_of_some hx]
  by_cases hj : j = i
  · subst hj; simp [hx, hs]
  · simp [hj]

lemma enter (h : Holds a l) (hb : b.held = a.held ++ [(i, s)]) (hx : l[i]? = some x)
    (hxs : x.share? = none) (hys : y.share? = some s) : Holds b (l.set i y) := by
  intro j t
  rw [hb, List.mem_append, h, getElem?_set_of_some hx, List.mem_singleton, Prod.mk.injEq]
  by_cases hj : j = i
  · subst hj
    simp [hx, hxs, hys, eq_comm]
  · simp [hj]

lemma leave (h : Holds a l) (hb : b.held = (a.vacate i).held) (hx : l[i]? = some x)
    (hys : y.share? = none) : Holds b (l.set i y) := by
  intro j t
  rw [hb, Admission.mem_held_vacate, h, getElem?_set_of_some hx]
  by_cases hj : j = i
  · subst hj; simp [hys]
  · simp [hj]

lemma lookup (h : Holds a l) (hn : (a.held.map Prod.fst).Nodup) (hx : l[i]? = some x)
    (hs : x.share? = some s) : a.held.lookup i = some s :=
  Admission.lookup_of_mem hn ((h i s).mpr ⟨x, hx, hs⟩)

end Holds

/-- Acceptances and failures are as many as the attempts that ended so, and an attempt was sent
away only if the run was aborted or all shares were placed. -/
structure Counted (a : Admission KeyShare (PublicKey × String)) (l : List Standing) : Prop where
  accepted : a.accepted.length = l.countP Standing.isAccepted
  failures : a.failures = l.countP Standing.isFailed
  aborted : a.aborted = decide (a.budget < a.failures)
  refused : ∀ j : Nat, l[j]? = some (Standing.ended .refused) →
    a.aborted = true ∨ a.accepted.length = a.required
  abandoned : ∀ j : Nat, l[j]? = some (Standing.ended .abandoned) → a.aborted = true

namespace Counted

variable {a b : Admission KeyShare (PublicKey × String)} {s : KeyShare}

/-- A step that charges and records nothing. -/
lemma keep (h : Counted a l) (hb : a.Keeps b) (hx : l[i]? = some x) (hlive : x.hasEnded = false)
    (hacc : y.isAccepted = false) (hfail : y.isFailed = false)
    (href : y = .ended .refused → a.aborted = true ∨ a.accepted.length = a.required)
    (haban : y = .ended .abandoned → a.aborted = true) : Counted b (l.set i y) := by
  have hxa := Standing.isAccepted_of_live hlive
  have hxf := Standing.isFailed_of_live hlive
  refine ⟨?_, ?_, ?_, fun j hj => ?_, fun j hj => ?_⟩
  · have hc := countP_set hx y Standing.isAccepted
    rw [hxa, hacc] at hc
    rw [hb.accepted, h.accepted]
    simpa using hc.symm
  · have hc := countP_set hx y Standing.isFailed
    rw [hxf, hfail] at hc
    rw [hb.failures, h.failures]
    simpa using hc.symm
  · rw [hb.aborted, hb.budget, hb.failures]
    exact h.aborted
  · rw [hb.aborted, hb.accepted, hb.required]
    rw [getElem?_set_of_some hx] at hj
    split at hj
    · exact href (Option.some.inj hj)
    · exact h.refused j hj
  · rw [hb.aborted]
    rw [getElem?_set_of_some hx] at hj
    split at hj
    · exact haban (Option.some.inj hj)
    · exact h.abandoned j hj

lemma fail (h : Counted a l) (hb : a.charge.Keeps b) (hx : l[i]? = some x)
    (hlive : x.hasEnded = false) (e : DistributionError) :
    Counted b (l.set i (.ended (.failed e))) := by
  have hxa := Standing.isAccepted_of_live hlive
  have hxf := Standing.isFailed_of_live hlive
  have hmono : a.aborted = true → b.aborted = true := fun ha => by
    rw [hb.aborted]
    simp [Admission.charge, ha]
  refine ⟨?_, ?_, ?_, fun j hj => ?_, fun j hj => ?_⟩
  · have hc := countP_set hx (Standing.ended (.failed e)) Standing.isAccepted
    rw [hxa] at hc
    rw [hb.accepted]
    exact h.accepted.trans (by simpa [Standing.isAccepted] using hc.symm)
  · have hc := countP_set hx (Standing.ended (.failed e)) Standing.isFailed
    rw [hxf] at hc
    rw [hb.failures]
    show a.failures + 1 = _
    rw [h.failures]
    simpa [Standing.isFailed] using hc.symm
  · -- An abort before stands, and this charge may be the one that goes over the budget.
    rw [hb.aborted, hb.budget, hb.failures]
    show (a.aborted || decide (a.budget < a.failures + 1)) = decide (a.budget < a.failures + 1)
    rw [h.aborted, ← Bool.decide_or]
    exact decide_eq_decide.mpr (by omega)
  · rw [getElem?_set_of_some hx] at hj
    split at hj
    · simp at hj
    · rw [hb.accepted, hb.required]
      exact (h.refused j hj).imp_left hmono
  · rw [getElem?_set_of_some hx] at hj
    split at hj
    · simp at hj
    · exact hmono (h.abandoned j hj)

lemma accept (h : Counted a l) {receipt : PublicKey × String} (hb : (a.place i receipt).Keeps b)
    (hlt : a.accepted.length < a.required) (hx : l[i]? = some x) (hlive : x.hasEnded = false) :
    Counted b (l.set i (.ended .accepted)) := by
  have hxa := Standing.isAccepted_of_live hlive
  have hxf := Standing.isFailed_of_live hlive
  have hab : b.aborted = a.aborted := hb.aborted
  refine ⟨?_, ?_, ?_, fun j hj => ?_, fun j hj => ?_⟩
  · have hc := countP_set hx (Standing.ended .accepted) Standing.isAccepted
    rw [hxa] at hc
    rw [hb.accepted]
    show (a.accepted ++ [receipt]).length = _
    rw [List.length_append, h.accepted]
    simpa [Standing.isAccepted] using hc.symm
  · have hc := countP_set hx (Standing.ended .accepted) Standing.isFailed
    rw [hxf] at hc
    rw [hb.failures]
    exact h.failures.trans (by simpa [Standing.isFailed] using hc.symm)
  · rw [hb.aborted, hb.budget, hb.failures]
    exact h.aborted
  · rw [getElem?_set_of_some hx] at hj
    split at hj
    · simp at hj
    · -- It was not for lack of shares, one more of which is placed only now.
      exact .inl (hab.trans ((h.refused j hj).resolve_right (by omega)))
  · rw [getElem?_set_of_some hx] at hj
    split at hj
    · simp at hj
    · exact hab.trans (h.abandoned j hj)

end Counted

namespace Floor

variable {f g : Floor}

/-- The standings tally with the admission. -/
structure Sound (f : Floor) : Prop where
  accounts : f.admission.Sound 0
  holds : Holds f.admission f.standings
  waiting : Listed f.admission.permits Standing.isQueued f.standings
  counted : Counted f.admission f.standings

/-- The standings tally with the miner's turn: one permit for the attempt that mines. -/
structure Orderly (f : Floor) : Prop where
  prompt : f.turn.Prompt
  ready : Listed f.turn Standing.isReady f.standings
  one : f.turn.idle + f.standings.countP Standing.isMining = 1

lemma Sound.step (h : f.Sound) (hs : f.Step g) : g.Sound := by
  obtain ⟨hacc, hold, hwait, hcount⟩ := h
  have hnew := fun {i x} (hx : f.standings[i]? = some x) => hold.notMem hx
  -- A step either leaves the slots alone, or takes one up, or empties the one at hand; the lemma to
  -- cite is named for it.
  cases hs with
  | wait hx =>
    exact ⟨hacc.wait _, hold.keep rfl hx rfl, hwait.enter (Permits.tickets_request _ _) hx rfl rfl,
      hcount.keep (Admission.keeps_wait _ _) hx rfl rfl rfl (by simp) (by simp)⟩
  | @refuse i a hx hr =>
    have hi := Admission.granted_of_resume hr (by simp)
    obtain ⟨hnone, hheld⟩ := Admission.resume_eq_refused hr
    have hsound := hacc.resume i (hnew hx rfl)
    have hkeeps := Admission.keeps_resume f.admission i i
    have htickets := Admission.tickets_resume hi i
    rw [hr] at hsound hkeeps htickets
    have hwhy := hnone.imp_right (hacc.full_of_idle (Permits.idle_pos hi))
    exact ⟨hsound, hold.keep hheld hx rfl, hwait.leave htickets hx rfl,
      hcount.keep hkeeps hx rfl rfl rfl (fun _ => hwhy) (by simp)⟩
  | @take i s a hx hr =>
    have hi := Admission.granted_of_resume hr (by simp)
    obtain ⟨-, hheld⟩ := Admission.resume_eq_share hr
    have hsound := hacc.resume i (hnew hx rfl)
    have hkeeps := Admission.keeps_resume f.admission i i
    have htickets := Admission.tickets_resume hi i
    rw [hr] at hsound hkeeps htickets
    exact ⟨hsound, hold.enter hheld hx rfl rfl, hwait.leave htickets hx rfl,
      hcount.keep hkeeps hx rfl rfl rfl (by simp) (by simp)⟩
  | @unreachable i s hx =>
    exact ⟨hacc.giveBack i, hold.leave (Admission.held_giveBack _ i) hx rfl,
      hwait.keep (Admission.tickets_giveBack _ i) hx rfl rfl,
      hcount.keep (Admission.keeps_giveBack _ i) hx rfl rfl rfl (by simp) (by simp)⟩
  | askTurn hx =>
    exact ⟨hacc, hold.keep rfl hx rfl, hwait.keep (List.Perm.refl _) hx rfl rfl,
      hcount.keep (.refl _) hx rfl rfl rfl (by simp) (by simp)⟩
  | @abandon i s t hx ht ha =>
    exact ⟨hacc.giveBack i, hold.leave (Admission.held_giveBack _ i) hx rfl,
      hwait.keep (Admission.tickets_giveBack _ i) hx rfl rfl,
      hcount.keep (Admission.keeps_giveBack _ i) hx rfl rfl rfl (by simp) (fun _ => ha)⟩
  | mine hx ht ha =>
    exact ⟨hacc, hold.keep rfl hx rfl, hwait.keep (List.Perm.refl _) hx rfl rfl,
      hcount.keep (.refl _) hx rfl rfl rfl (by simp) (by simp)⟩
  | mined hx =>
    exact ⟨hacc, hold.keep rfl hx rfl, hwait.keep (List.Perm.refl _) hx rfl rfl,
      hcount.keep (.refl _) hx rfl rfl rfl (by simp) (by simp)⟩
  | @fail i s e hx =>
    have hfail : ∀ {x}, f.standings[i]? = some x → x.share? = some s → x.hasEnded = false →
        x.isQueued = false →
        ({ f with admission := (f.admission.fail i).2 }.put i (.ended (.failed e))).Sound := by
      intro x hx hxs hlive hxq
      have hl := hold.lookup hacc.slots hx hxs
      exact ⟨hacc.fail i, hold.leave (Admission.held_fail _ i) hx rfl,
        hwait.keep (Admission.tickets_fail _ i) hx hxq rfl,
        hcount.fail (Admission.keeps_fail hl) hx hlive e⟩
    rcases hx with hx | hx <;> exact hfail hx rfl rfl rfl
  | @accept i s k hx hk =>
    have hl := hold.lookup hacc.slots hx rfl
    exact ⟨hacc.accept i _, hold.leave (Admission.held_accept _ i _) hx rfl,
      hwait.keep (Admission.tickets_accept _ i _) hx rfl rfl,
      hcount.accept (Admission.keeps_accept hl _) (hacc.accepted_lt hl) hx rfl⟩

lemma Orderly.keep (h : f.Orderly) {i : Nat} {x y : Standing}
    {a : Admission KeyShare (PublicKey × String)} (hx : f.standings[i]? = some x)
    (hxr : x.isReady = false) (hyr : y.isReady = false) (hxm : x.isMining = false)
    (hym : y.isMining = false) : ({ f with admission := a }.put i y).Orderly := by
  refine ⟨h.prompt, h.ready.keep (List.Perm.refl _) hx hxr hyr, ?_⟩
  have hc := countP_set hx y Standing.isMining
  rw [hxm, hym] at hc
  have hone := h.one
  show f.turn.idle + (f.standings.set i y).countP Standing.isMining = 1
  simp only [Bool.false_eq_true, if_false] at hc
  omega

lemma Orderly.step (h : f.Orderly) (hs : f.Step g) : g.Orderly := by
  cases hs with
  | wait hx => exact h.keep hx rfl rfl rfl rfl
  | refuse hx hr => exact h.keep hx rfl rfl rfl rfl
  | take hx hr => exact h.keep hx rfl rfl rfl rfl
  | unreachable hx => exact h.keep hx rfl rfl rfl rfl
  | fail e hx => rcases hx with hx | hx <;> exact h.keep hx rfl rfl rfl rfl
  | accept hx hk => exact h.keep hx rfl rfl rfl rfl
  | @askTurn i s hx =>
    refine ⟨h.prompt.request i, h.ready.enter (Permits.tickets_request _ i) hx rfl rfl, ?_⟩
    have hc := countP_set hx (.ready s) Standing.isMining
    have hone := h.one
    show (f.turn.request i).idle + (f.standings.set i _).countP Standing.isMining = 1
    rw [Permits.idle_request]
    simp only [Standing.isMining, Bool.false_eq_true, if_false] at hc
    omega
  | @abandon i s t hx ht ha =>
    refine ⟨(h.prompt.takeUp? ht).release, ?_, ?_⟩
    · refine h.ready.leave ((Permits.tickets_takeUp? ht).trans ?_) hx rfl
      exact (Permits.tickets_release t).symm.cons i
    · have hc := countP_set hx (.ended .abandoned) Standing.isMining
      have hone := h.one
      have hidle := Permits.idle_takeUp? ht
      show t.release.idle + (f.standings.set i _).countP Standing.isMining = 1
      rw [Permits.idle_release]
      simp only [Standing.isMining, Bool.false_eq_true, if_false] at hc
      omega
  | @mine i s t hx ht ha =>
    refine ⟨h.prompt.takeUp? ht, h.ready.leave (Permits.tickets_takeUp? ht) hx rfl, ?_⟩
    have hc := countP_set hx (.mining s) Standing.isMining
    have hone := h.one
    have hidle := Permits.idle_takeUp? ht
    show t.idle + (f.standings.set i _).countP Standing.isMining = 1
    simp only [Standing.isMining, Bool.false_eq_true, if_true, if_false] at hc
    omega
  | @mined i s hx =>
    refine ⟨h.prompt.release, h.ready.keep (Permits.tickets_release _) hx rfl rfl, ?_⟩
    have hc := countP_set hx (.sent s) Standing.isMining
    have hone := h.one
    show f.turn.release.idle + (f.standings.set i _).countP Standing.isMining = 1
    rw [Permits.idle_release]
    simp only [Standing.isMining, Bool.false_eq_true, if_true, if_false] at hc
    omega

lemma Sound.steps (h : f.Sound) (hs : f.Steps g) : g.Sound := by
  induction hs with
  | refl => exact h
  | tail _ hs ih => exact ih.step hs

lemma Orderly.steps (h : f.Orderly) (hs : f.Steps g) : g.Orderly := by
  induction hs with
  | refl => exact h
  | tail _ hs ih => exact ih.step hs

end Floor

end KeyQuorum
