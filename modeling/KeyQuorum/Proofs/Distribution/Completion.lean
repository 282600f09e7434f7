import Mathlib.Tactic.Lemma
import KeyQuorum.Proofs.Distribution.Receipts

/-!
A run in which everybody does their part.

The attempts are taken one after the other, and there is a share for each of them. The miner
gives back a draft, a relay takes the event and the signer replies to it. So one attempt after
the other is accepted, and when the coordinator takes the record the run has succeeded.
-/

namespace KeyQuorum.Run

/-- What one attempt gets from the world. -/
structure Visit where
  mined : Draft
  relay : String
  reply : Event

/-- What happens during the visit of the attempt `i`. -/
def Visit.stimuli (v : Visit) (i : Nat) : List Stimulus :=
  [.advance i, .mined i (.ok v.mined), .hear i (.answer ⟨v.relay, none⟩), .hear i (.reply v.reply)]

def visiting (i : Nat) : List Visit → List Stimulus
  | [] => []
  | v :: vs => v.stimuli i ++ visiting (i + 1) vs

/-- The visit ends well with the randomness at hand: the share can be encrypted and the mined
draft signed, and the signer's reply acknowledges the event. -/
structure Welcome (t : Terms) (e : Entropy) (k : PublicKey) (s : KeyShare) (v : Visit) : Prop where
  reachable : ((t.request.inboxes.lookup k).getD []).isEmpty = false
  encrypts : ∃ payload,
    Payload.encrypt t.dealer k e.draw.1 s.toHex.toUTF8.data.toList = .ok payload
  signs : ∃ event, v.mined.sign t.dealer e.draw.2.draw.1 = .ok event ∧
    (Delivery.ackFilter t.settings.kinds.acknowledgement t.dealer.publicKey k event).accepts
      v.reply = true
  verifies : v.reply.verify = true

/-- The miner gives back the draft of the share but for its time and its nonce. -/
def Faithful (t : Terms) (e : Entropy) (k : PublicKey) (s : KeyShare) (v : Visit) : Prop :=
  ∀ payload, Payload.encrypt t.dealer k e.draw.1 s.toHex.toUTF8.data.toList = .ok payload →
    v.mined.MinedFrom ⟨t.dealer.publicKey, t.now, t.settings.kinds.shard, [["p", k.hex],
      ["coordinator", t.request.coordinator], "reply" :: t.settings.replyRelays], payload⟩

/-- Each visit is as it should be, with the randomness that those before it leave. -/
def Throughout (good : Entropy → PublicKey → KeyShare → Visit → Prop) :
    Entropy → List (PublicKey × KeyShare) → List Visit → Prop
  | _, [], [] => True
  | e, p :: ps, v :: vs => good e p.1 p.2 v ∧ Throughout good e.draw.2.draw.2 ps vs
  | _, _, _ => False

variable {r : Run} {done rest : List Attempt} {k : PublicKey} {s : KeyShare} {i n : Nat}
  {p q : Phase} {draft mined : Draft} {event reply : Event} {relays : List String}

/-! ### One visit -/

lemma attempt_of_append (h : r.attempts = done ++ ⟨k, p⟩ :: rest) :
    r.attempts[done.length]? = some ⟨k, p⟩ := by
  rw [h, List.getElem?_append_right (Nat.le_refl _), Nat.sub_self]
  rfl

lemma setPhase_of_append (h : r.attempts = done ++ ⟨k, p⟩ :: rest) (q : Phase) :
    r.setPhase done.length q = { r with attempts := done ++ ⟨k, q⟩ :: rest } := by
  have hmodify : ∀ l : List Attempt, (l ++ ⟨k, p⟩ :: rest).modify l.length
      (fun a => { a with phase := q }) = l ++ ⟨k, q⟩ :: rest := by
    intro l
    induction l with
    | nil => rfl
    | cons a l ih => exact congrArg (a :: ·) ih
  rw [setPhase, h, hmodify]

lemma setPhase_setPhase (r : Run) (i : Nat) (p q : Phase) :
    (r.setPhase i p).setPhase i q = r.setPhase i q := by
  simp only [setPhase, List.modify_modify_eq]
  rfl

lemma resume_wait {α β : Type} {a : Admission α β} {s : α} {pool : List α}
    (hpermits : a.permits = ⟨n + 1, [], []⟩) (hpool : a.pool = s :: pool)
    (haborted : a.aborted = false) (i : Nat) :
    (a.wait i).resume i i = (.share s,
      { a with permits := ⟨n, [], []⟩, pool, held := a.held ++ [(i, s)] }) := by
  simp [Admission.wait, Admission.resume, Permits.request, hpermits, Permits.takeUp?,
    Admission.fill, haborted, hpool]

lemma awaitTurn_of_granted {turn : Permits} (hturn : r.turn.takeUp? i = some turn)
    (haborted : r.admission.aborted = false) (s : KeyShare) (draft : Draft) :
    (r.awaitTurn i s draft).1 = { r with turn }.setPhase i (.mining s draft) := by
  simp only [awaitTurn, hturn, useTurn, haborted, Bool.false_eq_true, if_false]

lemma prepare_of_encrypt {payload : String} (haborted : r.admission.aborted = false)
    (hturn : r.turn = ⟨1, [], []⟩) (hinbox : (r.inbox k).isEmpty = false)
    (hpayload : Payload.encrypt r.dealer k r.entropy.draw.1 s.toHex.toUTF8.data.toList =
      .ok payload) :
    (r.prepare i k s).1 = { r with
      entropy := r.entropy.draw.2
      turn := ⟨0, [], []⟩ }.setPhase i (.mining s (r.shardDraft k payload)) := by
  have hgranted : (r.turn.request i).takeUp? i = some ⟨0, [], []⟩ := by
    simp [hturn, Permits.request, Permits.takeUp?]
  unfold prepare
  rw [if_neg (Bool.eq_false_iff.mp hinbox)]
  simp only [hpayload]
  let draft := r.shardDraft k payload
  let r₁ : Run := { r with entropy := r.entropy.draw.2, turn := r.turn.request i }
  let r₂ : Run := { r with entropy := r.entropy.draw.2, turn := ⟨0, [], []⟩ }
  -- The miner is free, so the attempt stands waiting for it only in passing.
  calc ((r₁.setPhase i (.ready s draft)).awaitTurn i s draft).1
      = (r₂.setPhase i (.ready s draft)).setPhase i (.mining s draft) :=
        awaitTurn_of_granted (r := r₁.setPhase i (.ready s draft)) hgranted haborted s draft
    _ = r₂.setPhase i (.mining s draft) := setPhase_setPhase r₂ i _ _

lemma awaitShare_of_resume {admission : Admission KeyShare (PublicKey × String)}
    (h : r.admission.resume i i = (.share s, admission)) (k : PublicKey) :
    r.awaitShare i k = { r with admission }.prepare i k s := by
  simp only [awaitShare, h]

lemma visit_advance {pool : List KeyShare} {payload : String} (hstage : r.stage = .delivering)
    (ha : r.attempts = done ++ ⟨k, .idle⟩ :: rest)
    (hpermits : r.admission.permits = ⟨n + 1, [], []⟩)
    (hpool : r.admission.pool = s :: pool) (haborted : r.admission.aborted = false)
    (hturn : r.turn = ⟨1, [], []⟩) (hinbox : (r.inbox k).isEmpty = false)
    (hpayload : Payload.encrypt r.dealer k r.entropy.draw.1 s.toHex.toUTF8.data.toList =
      .ok payload) :
    (r.step (.advance done.length)).1 = { r with
      entropy := r.entropy.draw.2
      admission := { r.admission with
        permits := ⟨n, [], []⟩, pool, held := r.admission.held ++ [(done.length, s)] }
      turn := ⟨0, [], []⟩
      attempts := done ++ ⟨k, .mining s (r.shardDraft k payload)⟩ :: rest } := by
  -- The run while the attempt waits for a permit, and the run with its share taken.
  let r₁ : Run := { r with admission := r.admission.wait done.length }.setPhase done.length .queued
  let r₂ : Run := { r₁ with admission := { r.admission with
    permits := ⟨n, [], []⟩, pool, held := r.admission.held ++ [(done.length, s)] } }
  have hresume : r₁.awaitShare done.length k = r₂.prepare done.length k s :=
    awaitShare_of_resume (resume_wait hpermits hpool haborted done.length) k
  have hprepare := prepare_of_encrypt (r := r₂) (i := done.length) haborted hturn hinbox hpayload
  rw [step_attempt hstage (attempt_of_append ha) (.advance _) rfl, stepAttempt]
  change (r₁.awaitShare done.length k).1 = _
  rw [hresume, hprepare]
  exact (setPhase_setPhase _ _ _ _).trans (setPhase_of_append (r := { r with
    entropy := r.entropy.draw.2, admission := r₂.admission, turn := ⟨0, [], []⟩ }) ha _)

lemma visit_mined (hstage : r.stage = .delivering)
    (ha : r.attempts = done ++ ⟨k, .mining s draft⟩ :: rest) (hturn : r.turn = ⟨0, [], []⟩)
    (hsign : mined.sign r.dealer r.entropy.draw.1 = .ok event) :
    (r.step (.mined done.length (.ok mined))).1 = { r with
      entropy := r.entropy.draw.2
      turn := ⟨1, [], []⟩
      attempts := done ++ ⟨k, .delivering s (Delivery.start event (Delivery.ackFilter
        r.settings.kinds.acknowledgement r.dealer.publicKey k event) (r.inbox k))⟩ :: rest } := by
  rw [step_attempt hstage (attempt_of_append ha) (.mined _ (.ok mined)) rfl, stepAttempt]
  simp only [minerDone, send, hsign, hturn, Permits.release]
  exact setPhase_of_append (r := { r with entropy := r.entropy.draw.2, turn := ⟨1, [], []⟩ }) ha _

lemma visit_answer {filter : Filter} (hstage : r.stage = .delivering)
    (hrelays : relays.isEmpty = false) (relay : String)
    (ha : r.attempts = done ++ ⟨k, .delivering s (Delivery.start event filter relays)⟩ :: rest) :
    (r.step (.hear done.length (.answer ⟨relay, none⟩))).1 = { r with
      attempts :=
        done ++ ⟨k, .delivering s ⟨event, filter, .accepted relay, .awaited⟩⟩ :: rest } := by
  have hstart : Publishing.start relays = .pending [] := if_neg (Bool.eq_false_iff.mp hrelays)
  rw [step_attempt hstage (attempt_of_append ha) (.hear _ _) rfl, stepAttempt]
  simp only [deliver, Delivery.hear, Delivery.start, hstart, Publishing.receive, Delivery.verdict?]
  exact setPhase_of_append ha _

lemma visit_reply {filter : Filter} {relay : String} (hstage : r.stage = .delivering)
    (haccepts : filter.accepts reply = true) (hverifies : reply.verify = true)
    (ha : r.attempts =
      done ++ ⟨k, .delivering s ⟨event, filter, .accepted relay, .awaited⟩⟩ :: rest) :
    (r.step (.hear done.length (.reply reply))).1 = { r with
      admission := (r.admission.accept done.length (k, s.publicShare.toHex)).2
      attempts := done ++ ⟨k, .ended .accepted⟩ :: rest } := by
  have hgenuine : (⟨event, filter, .accepted relay, .awaited⟩ : Delivery).genuine reply = true := by
    rw [Delivery.genuine, haccepts, hverifies]
    rfl
  rw [step_attempt hstage (attempt_of_append ha) (.hear _ _) rfl, stepAttempt]
  simp only [deliver, Delivery.hear, hgenuine, and_self, if_true, Delivery.verdict?, succeed]
  exact setPhase_of_append (r := { r with
    admission := (r.admission.accept done.length (k, s.publicShare.toHex)).2 }) ha _

/-! ### One visit after the other -/

/-- Some attempts have ended and the others have not begun, and each of those is to get the share
at its place in the pool. -/
structure Due (r : Run) (done : List Attempt) (ps : List (PublicKey × KeyShare)) : Prop where
  stage : r.stage = .delivering
  attempts : r.attempts = done ++ ps.map fun p => ⟨p.1, .idle⟩
  ended : ∀ a ∈ done, a.phase.hasEnded = true
  turn : r.turn = ⟨1, [], []⟩
  pool : r.admission.pool = ps.map Prod.snd
  held : r.admission.held = []
  permits : ps ≠ [] → r.admission.permits = ⟨ps.length, [], []⟩
  aborted : r.admission.aborted = false
  required : r.admission.required = r.admission.accepted.length + ps.length

/-- The acceptance of the only share that is held. -/
lemma accept_held {a : Admission KeyShare (PublicKey × String)} (hheld : a.held = [(i, s)])
    (hrequired : a.required = a.accepted.length + (n + 1)) (hpermits : a.permits = ⟨n, [], []⟩)
    (receipt : PublicKey × String) :
    (a.accept i receipt).2 = { a with
      held := []
      accepted := a.accepted ++ [receipt]
      permits := ⟨if n = 0 then 1 else n, [], []⟩ } := by
  -- The acceptance is the last just if no other share is due.
  have hlast : a.accepted.length + (n + 1) ≤ a.accepted.length + 1 ↔ n = 0 := by omega
  by_cases hn : n = 0 <;>
    simp [Admission.accept, hheld, Admission.vacate, hrequired, hlast, hn, Admission.releasePermit,
      hpermits, Permits.release]

/-- **A visit that ends well places the share** and leaves the others due. -/
lemma Due.visit {ps : List (PublicKey × KeyShare)} {v : Visit} (h : r.Due done ((k, s) :: ps))
    (hv : Welcome r.terms r.entropy k s v) :
    ∃ r', (r.steps (v.stimuli done.length)).1 = r' ∧
      r'.Due (done ++ [⟨k, .ended .accepted⟩]) ps ∧
      r'.admission.accepted = r.admission.accepted ++ [receipt (k, s)] ∧
      r'.entropy = r.entropy.draw.2.draw.2 := by
  obtain ⟨hreachable, ⟨payload, hpayload⟩, ⟨event, hsign, haccepts⟩, hverifies⟩ := hv
  let idle : List Attempt := ps.map fun p => ⟨p.1, .idle⟩
  let filter := Delivery.ackFilter r.settings.kinds.acknowledgement r.dealer.publicKey k event
  let r₁ : Run := { r with
    entropy := r.entropy.draw.2
    admission := { r.admission with
      permits := ⟨ps.length, [], []⟩
      pool := ps.map Prod.snd
      held := r.admission.held ++ [(done.length, s)] }
    turn := ⟨0, [], []⟩
    attempts := done ++ ⟨k, .mining s (r.shardDraft k payload)⟩ :: idle }
  let r₂ : Run := { r₁ with
    entropy := r.entropy.draw.2.draw.2
    turn := ⟨1, [], []⟩
    attempts := done ++ ⟨k, .delivering s (Delivery.start event filter (r.inbox k))⟩ :: idle }
  let r₃ : Run := { r₂ with
    attempts := done ++ ⟨k, .delivering s ⟨event, filter, .accepted v.relay, .awaited⟩⟩ :: idle }
  let r₄ : Run := { r₃ with
    admission := (r₃.admission.accept done.length (k, s.publicShare.toHex)).2
    attempts := done ++ ⟨k, .ended .accepted⟩ :: idle }
  have h₁ : (r.step (.advance done.length)).1 = r₁ :=
    visit_advance h.stage h.attempts (h.permits nofun) h.pool h.aborted h.turn hreachable hpayload
  have h₂ : (r₁.step (.mined done.length (.ok v.mined))).1 = r₂ :=
    visit_mined (r := r₁) h.stage rfl rfl hsign
  have h₃ : (r₂.step (.hear done.length (.answer ⟨v.relay, none⟩))).1 = r₃ :=
    visit_answer (r := r₂) h.stage hreachable v.relay rfl
  have h₄ : (r₃.step (.hear done.length (.reply v.reply))).1 = r₄ :=
    visit_reply (r := r₃) h.stage haccepts hverifies rfl
  have hsteps : (r.steps (v.stimuli done.length)).1 = r₄ := by
    simp only [Visit.stimuli, steps, h₁, h₂, h₃, h₄]
  have haccept := accept_held (a := r₃.admission) (i := done.length) (s := s) (n := ps.length)
    (congrArg (· ++ [(done.length, s)]) h.held) h.required rfl (receipt (k, s))
  refine ⟨r₄, hsteps, ⟨h.stage, ?_, ?_, rfl, ?_, ?_, ?_, ?_, ?_⟩, ?_, rfl⟩
  · -- what is due to the others is due as before
    exact List.append_cons done _ idle
  · intro a ha
    rcases List.mem_append.mp ha with ha | ha
    · exact h.ended a ha
    · rw [List.mem_singleton.mp ha]
      rfl
  · exact congrArg Admission.pool haccept
  · exact congrArg Admission.held haccept
  · intro hps
    have hlen : ps.length ≠ 0 := fun h0 => hps (List.eq_nil_of_length_eq_zero h0)
    exact (congrArg Admission.permits haccept).trans (by rw [if_neg hlen])
  · exact (congrArg Admission.aborted haccept).trans h.aborted
  · have hrequired := congrArg Admission.required haccept
    have haccepted := congrArg (List.length ∘ Admission.accepted) haccept
    simp only [Function.comp_apply, List.length_append, List.length_singleton] at haccepted
    rw [show r₄.admission.required = r.admission.required from hrequired,
      show r₄.admission.accepted.length = r.admission.accepted.length + 1 from haccepted,
      h.required, List.length_cons]
    omega
  · exact congrArg Admission.accepted haccept

lemma Due.honest_visit {ps : List (PublicKey × KeyShare)} {v : Visit}
    (h : r.Due done ((k, s) :: ps)) (hv : Welcome r.terms r.entropy k s v)
    (hminer : Faithful r.terms r.entropy k s v) : r.HonestMiner (v.stimuli done.length) := by
  obtain ⟨hreachable, ⟨payload, hpayload⟩, -, -⟩ := hv
  refine ⟨trivial, fun k' s' draft ha => ?_, trivial, trivial, trivial⟩
  rw [visit_advance h.stage h.attempts (h.permits nofun) h.pool h.aborted h.turn hreachable
    hpayload, List.getElem?_append_right (Nat.le_refl _), Nat.sub_self] at ha
  obtain ⟨-, hphase⟩ := Attempt.mk.inj (Option.some.inj ha)
  obtain ⟨-, rfl⟩ := Phase.mining.inj hphase
  exact hminer payload hpayload

lemma Due.visits {ps : List (PublicKey × KeyShare)} {vs : List Visit} (h : r.Due done ps)
    (hv : Throughout (Welcome r.terms) r.entropy ps vs) :
    ∃ r' done', (r.steps (visiting done.length vs)).1 = r' ∧ r'.Due done' [] ∧
      r'.admission.accepted = r.admission.accepted ++ ps.map receipt ∧
      r'.entropy = { r.entropy with used := r.entropy.used + 2 * ps.length } := by
  -- One visit after the other, with the entropy that it leaves and one more attempt done.
  induction ps generalizing r done vs with
  | nil =>
    cases vs with
    | nil => exact ⟨r, done, rfl, h, (List.append_nil _).symm, rfl⟩
    | cons v vs => exact hv.elim
  | cons p ps ih =>
    cases vs with
    | nil => exact hv.elim
    | cons v vs =>
      obtain ⟨hwelcome, hrest⟩ := hv
      obtain ⟨r₁, hr₁, hdue, haccepted, hentropy⟩ := h.visit hwelcome
      have hterms : r₁.terms = r.terms := hr₁ ▸ terms_steps r _
      obtain ⟨r', done', hr', hdue', haccepted', hentropy'⟩ :=
        ih hdue (by rw [hterms, hentropy]; exact hrest)
      refine ⟨r', done', ?_, hdue', ?_, ?_⟩
      · rw [visiting, steps_append, hr₁]
        rwa [List.length_append] at hr'
      · rw [haccepted', haccepted, List.append_assoc]
        rfl
      · rw [hentropy', hentropy]
        simp only [Entropy.draw, List.length_cons]
        congr 1
        omega

lemma Due.honest_visits {ps : List (PublicKey × KeyShare)} {vs : List Visit} (h : r.Due done ps)
    (hv : Throughout (Welcome r.terms) r.entropy ps vs)
    (hminer : Throughout (Faithful r.terms) r.entropy ps vs) :
    r.HonestMiner (visiting done.length vs) := by
  induction ps generalizing r done vs with
  | nil =>
    cases vs with
    | nil => trivial
    | cons v vs => exact hv.elim
  | cons p ps ih =>
    cases vs with
    | nil => exact hv.elim
    | cons v vs =>
      obtain ⟨hwelcome, hrest⟩ := hv
      obtain ⟨hfaithful, hminer⟩ := hminer
      obtain ⟨r₁, hr₁, hdue, -, hentropy⟩ := h.visit hwelcome
      have hterms : r₁.terms = r.terms := hr₁ ▸ terms_steps r _
      rw [visiting, honestMiner_append]
      refine ⟨h.honest_visit hwelcome hfaithful, ?_⟩
      have hlater := ih hdue (by rw [hterms, hentropy]; exact hrest)
        (by rw [hterms, hentropy]; exact hminer)
      rw [hr₁]
      rwa [List.length_append] at hlater

variable {dealer handler : KeyPair} {settings : Settings} {request : Request} {now : Timestamp}
  {shares : List KeyShare} {entropy e : Entropy} {vs : List Visit} {record : Record}

lemma due_start (h : start dealer settings request now shares entropy = .ok r)
    (hcount : request.candidates.eraseDups.length = shares.length) :
    r.Due [] (request.candidates.eraseDups.zip shares) ∧ r.admission.accepted = [] ∧
      r.entropy = entropy ∧ r.terms = ⟨dealer, settings, request, now⟩ := by
  obtain ⟨-, -, -, -, rfl⟩ := start_eq_ok_iff.mp h
  have hsigners : (request.candidates.eraseDups.zip shares).map Prod.fst =
      request.candidates.eraseDups := List.map_fst_zip (Nat.le_of_eq hcount)
  have hshares : (request.candidates.eraseDups.zip shares).map Prod.snd = shares :=
    List.map_snd_zip (Nat.le_of_eq hcount.symm)
  have hlen : (request.candidates.eraseDups.zip shares).length = shares.length := by
    rw [List.length_zip, hcount, Nat.min_self]
  -- There is one share for each candidate, so the zip has all of both.
  refine ⟨⟨rfl, ?_, nofun, rfl, hshares.symm, rfl, fun _ => ?_, ?_, ?_⟩, rfl, rfl, rfl⟩
  · have hidle :=
      congrArg (List.map fun signer : PublicKey => (⟨signer, .idle⟩ : Attempt)) hsigners
    rw [List.map_map] at hidle
    exact hidle.symm
  · rw [hlen]
    rfl
  · exact decide_eq_false (by omega)
  · rw [hlen]
    exact (Nat.zero_add _).symm

lemma result_of_announcing {record : Record} {refusal : Option String}
    (h : r.stage = .announcing record refusal) (relay : String) :
    (r.step (.coordinatorAnswer ⟨relay, none⟩)).1.result? = some (.ok record) := by
  simp only [step, h, finish, result?]

/-- Everybody has done their part: all attempts have ended, and each share is placed. -/
lemma visited (hstart : start dealer settings request now shares entropy = .ok r)
    (hcount : request.candidates.eraseDups.length = shares.length)
    (hv : Throughout (Welcome ⟨dealer, settings, request, now⟩) entropy
      (request.candidates.eraseDups.zip shares) vs) :
    let r' := (r.steps (visiting 0 vs)).1
    r'.stage = .delivering ∧ (∀ a ∈ r'.attempts, a.phase.hasEnded = true) ∧
      r'.admission.finish = .ok r'.admission.accepted ∧
      r'.admission.accepted = (request.candidates.eraseDups.zip shares).map receipt ∧
      r'.terms = ⟨dealer, settings, request, now⟩ ∧
      r'.entropy = { entropy with used := entropy.used + 2 * shares.length } := by
  obtain ⟨hdue, haccepted, hentropy, hterms⟩ := due_start hstart hcount
  obtain ⟨r', done, rfl, hdue', haccepted', hentropy'⟩ :=
    hdue.visits (by rw [hterms, hentropy]; exact hv)
  have hfinish := Admission.finish_eq_ok.mpr
    ⟨hdue'.aborted, hdue'.pool, Nat.le_of_eq hdue'.required, rfl⟩
  refine ⟨hdue'.stage, ?_, hfinish, ?_, (terms_steps r _).trans hterms, ?_⟩
  · have hattempts := hdue'.attempts.trans (List.append_nil done)
    exact fun a ha => hdue'.ended a (hattempts ▸ ha)
  · exact haccepted'.trans (by rw [haccepted, List.nil_append])
  · exact hentropy'.trans (by rw [hentropy, List.length_zip, hcount, Nat.min_self])

/-- **A run in which everybody does their part succeeds**, with the record of who took what. -/
theorem result_of_visits (hstart : start dealer settings request now shares entropy = .ok r)
    (hcount : request.candidates.eraseDups.length = shares.length)
    (hv : Throughout (Welcome ⟨dealer, settings, request, now⟩) entropy
      (request.candidates.eraseDups.zip shares) vs)
    (hhandler : KeyPair.generate { entropy with used := entropy.used + 2 * shares.length } =
      (some handler, e))
    (hbuild : Record.build dealer now settings.kinds.registration
      ((request.candidates.eraseDups.zip shares).map receipt) request.threshold handler e.draw.1 =
        .ok record) (relay : String) :
    (r.steps (visiting 0 vs ++ [.conclude, .coordinatorAnswer ⟨relay, none⟩])).1.result? =
      some (.ok record) := by
  obtain ⟨hstage, hended, hfinish, hplaced, hterms, hentropy⟩ := visited hstart hcount hv
  obtain ⟨hdealer, hsettings, hrequest, hnow⟩ := Terms.mk.inj hterms
  rw [steps_append]
  -- Only what the visits come to matters from here on.
  generalize (r.steps (visiting 0 vs)).1 = r' at *
  have hannounce : (r'.step .conclude).1.stage = .announcing record none := by
    rw [step_conclude_ok hstage hended hfinish, announce, hentropy, hhandler]
    simp only [hplaced, hdealer, hsettings, hrequest, hnow, hbuild]
  exact result_of_announcing hannounce relay

theorem honestMiner_of_visits (hstart : start dealer settings request now shares entropy = .ok r)
    (hcount : request.candidates.eraseDups.length = shares.length)
    (hv : Throughout (Welcome ⟨dealer, settings, request, now⟩) entropy
      (request.candidates.eraseDups.zip shares) vs)
    (hminer : Throughout (Faithful ⟨dealer, settings, request, now⟩) entropy
      (request.candidates.eraseDups.zip shares) vs) (relay : String) :
    r.HonestMiner (visiting 0 vs ++ [.conclude, .coordinatorAnswer ⟨relay, none⟩]) := by
  obtain ⟨hdue, -, hentropy, hterms⟩ := due_start hstart hcount
  have hvisits : r.HonestMiner (visiting 0 vs) := hdue.honest_visits
    (by rw [hterms, hentropy]; exact hv) (by rw [hterms, hentropy]; exact hminer)
  exact honestMiner_append.mpr ⟨hvisits, trivial, trivial, trivial⟩

end KeyQuorum.Run
