import KeyQuorum.Proofs.Distribution.Record
import KeyQuorum.Proofs.Distribution.Unanimity

/-!
When a record that was built is read back.

The kind, the signature and the handler are always as the reader wants them, so only the threshold
and the signers decide. The threshold comes first. Then the signers are read in order up to the
first whose share does not decode, and only when all do are they counted.
-/

namespace KeyQuorum.Record

variable {dealer handler : KeyPair} {now : Timestamp} {kind : UInt16} {threshold : UInt32}
  {signers : List (PublicKey × String)} {random : Block 32} {record : Record}

/-- The signers' shares all decode, or there is a first that does not. -/
lemma decode_or_first (signers : List (PublicKey × String)) :
    (∀ s ∈ signers, ∃ p, PublicShare.ofHex s.2 = .ok p) ∨
      ∃ before s after fault, signers = before ++ s :: after ∧
        (∀ b ∈ before, ∃ p, PublicShare.ofHex b.2 = .ok p) ∧
        PublicShare.ofHex s.2 = .error fault := by
  induction signers with
  | nil => exact .inl fun s hs => absurd hs List.not_mem_nil
  | cons s signers ih =>
    cases hs : PublicShare.ofHex s.2 with
    | error fault =>
      exact .inr ⟨[], s, signers, fault, rfl, fun b hb => absurd hb List.not_mem_nil, hs⟩
    | ok p =>
      -- its share decodes, so the first that does not is among the others
      rcases ih with hall | ⟨before, t, after, fault, rfl, hbefore, ht⟩
      · exact .inl (List.forall_mem_cons.mpr ⟨⟨p, hs⟩, hall⟩)
      · have hbefore' := List.forall_mem_cons.mpr ⟨⟨p, hs⟩, hbefore⟩
        exact .inr ⟨s :: before, t, after, fault, rfl, hbefore', ht⟩

structure Readable (signers : List (PublicKey × String)) (threshold : UInt32) : Prop where
  pos : threshold ≠ 0
  le : threshold ≤ maxThreshold
  enough : threshold.toNat ≤ signers.length
  shares : ∀ s ∈ signers, ∃ p, PublicShare.ofHex s.2 = .ok p

lemma ofEvent_build_of_undecodable {before after : List (PublicKey × String)}
    {s : PublicKey × String} {fault : WireError}
    (h : build dealer now kind (before ++ s :: after) threshold handler random = .ok record)
    (hpos : threshold ≠ 0) (hle : threshold ≤ maxThreshold)
    (hbefore : ∀ b ∈ before, ∃ p, PublicShare.ofHex b.2 = .ok p)
    (hs : PublicShare.ofHex s.2 = .error fault) :
    ofEvent record.event kind = .error (.refused (.ofWire fault)) := by
  have hsigners : readSigners ((before ++ s :: after).map fun s => ["p", s.1.hex, s.2]) =
      .error (.refused (.ofWire fault)) := by
    rw [List.map_append, List.map_cons]
    refine readSigners_eq_error.mpr ⟨_, _, _, rfl, ⟨_, readSigners_tags hbefore⟩, ?_⟩
    simp only [readSigner, PublicKey.ofHex_hex, hs]
  rw [ofEvent_build_eq h, if_neg (not_or.mpr ⟨hpos, UInt32.not_lt.mpr hle⟩), hsigners]
  rfl

lemma ofEvent_build_of_few
    (h : build dealer now kind signers threshold handler random = .ok record)
    (hpos : threshold ≠ 0) (hle : threshold ≤ maxThreshold)
    (hshares : ∀ s ∈ signers, ∃ p, PublicShare.ofHex s.2 = .ok p)
    (hfew : signers.length < threshold.toNat) :
    ofEvent record.event kind = invalid .tooFewSigners := by
  rw [ofEvent_build_eq h, if_neg (not_or.mpr ⟨hpos, UInt32.not_lt.mpr hle⟩),
    readSigners_tags hshares]
  exact if_pos hfew

lemma readable_or_refused
    (h : build dealer now kind signers threshold handler random = .ok record) :
    Readable signers threshold ∧ ofEvent record.event kind = .ok record ∨
      ¬ Readable signers threshold ∧ ∃ e, ofEvent record.event kind = .error e := by
  -- The reader looks at the threshold first, then at the shares, and at their number last.
  by_cases hout : threshold = 0 ∨ maxThreshold < threshold
  · refine .inr ⟨fun hr => hout.elim hr.pos (UInt32.not_lt.mpr hr.le),
      .refused (.invalidRecord .thresholdOutOfRange), ?_⟩
    rw [ofEvent_build_eq h, if_pos hout]
    rfl
  obtain ⟨hpos, hle⟩ := not_or.mp hout
  have hle := UInt32.not_lt.mp hle
  rcases decode_or_first signers with hshares | ⟨before, s, after, fault, rfl, hbefore, hs⟩
  · rcases Nat.lt_or_ge signers.length threshold.toNat with hfew | henough
    · exact .inr ⟨fun hr => Nat.not_lt.mpr hr.enough hfew, _,
        ofEvent_build_of_few h hpos hle hshares hfew⟩
    · exact .inl ⟨⟨hpos, hle, henough, hshares⟩, ofEvent_build h hpos hle henough hshares⟩
  · refine .inr ⟨fun hr => ?_, _, ofEvent_build_of_undecodable h hpos hle hbefore hs⟩
    obtain ⟨p, hp⟩ := hr.shares s (List.mem_append_right _ List.mem_cons_self)
    rw [hs] at hp
    cases hp

/-- **A record is read back just if** its threshold is in range, its signers reach the threshold
and all of their shares decode, and then as it was built. Else the threshold is what it is refused
for, or the first share that does not decode, or the number of its signers, in this order. -/
theorem built_read_back (h : build dealer now kind signers threshold handler random = .ok record) :
    (record.signers = signers ∧ record.threshold = threshold ∧ record.handler = handler) ∧
    (ofEvent record.event kind = .ok record ↔ Readable signers threshold) ∧
    (¬ Readable signers threshold → ∃ e, ofEvent record.event kind = .error e) ∧
    (threshold = 0 ∨ maxThreshold < threshold →
      ofEvent record.event kind = invalid .thresholdOutOfRange) ∧
    (threshold ≠ 0 → threshold ≤ maxThreshold →
      (∀ before s after fault, signers = before ++ s :: after →
        (∀ b ∈ before, ∃ p, PublicShare.ofHex b.2 = .ok p) →
        PublicShare.ofHex s.2 = .error fault →
        ofEvent record.event kind = .error (.refused (.ofWire fault))) ∧
      ((∀ s ∈ signers, ∃ p, PublicShare.ofHex s.2 = .ok p) →
        signers.length < threshold.toNat →
          ofEvent record.event kind = invalid .tooFewSigners)) := by
  obtain ⟨hsigners, hthreshold, hhandler, -⟩ := build_eq_ok h
  refine ⟨⟨hsigners, hthreshold, hhandler⟩, ?_, ?_, fun hout => ?_, fun hpos hle => ⟨?_, ?_⟩⟩
  · rcases readable_or_refused h with ⟨hreadable, hok⟩ | ⟨hnot, e, herror⟩
    · exact iff_of_true hok hreadable
    · exact iff_of_false (by rw [herror]; nofun) hnot
  · intro hnot
    exact ((readable_or_refused h).resolve_left fun hr => hnot hr.1).2
  · rw [ofEvent_build_eq h, if_pos hout]
  · rintro before s after fault rfl hbefore hs
    exact ofEvent_build_of_undecodable h hpos hle hbefore hs
  · exact ofEvent_build_of_few h hpos hle

def soleSigner : PublicKey × String :=
  Run.receipt ((Unanimity.signer 0).publicKey, Unanimity.share 1 0)

lemma decode_soleSigner : ∃ p, PublicShare.ofHex soleSigner.2 = .ok p := by
  have hlegible : (Unanimity.share 1 0).publicShare.Legible := by
    refine ⟨Point.ofScalar_ne_infinity.mpr (by decide), fun c hc => ?_, by decide⟩
    obtain ⟨a, ha, rfl⟩ := List.mem_map.mp hc
    obtain rfl := List.eq_of_mem_replicate ha
    exact Point.ofScalar_ne_infinity.mpr (by decide)
  refine ⟨(Unanimity.share 1 0).publicShare, ?_⟩
  rw [soleSigner, Run.receipt, PublicShare.ofHex_toHex]
  exact PublicShare.decode_encode hlegible

lemma readable_soleSigner : Readable [soleSigner] 1 :=
  ⟨by decide, by decide, by decide, List.forall_mem_singleton.mpr decode_soleSigner⟩

lemma exists_soleSigner : ∃ record, build Unanimity.dealer 0 Unanimity.settings.kinds.registration
    [soleSigner] 1 Unanimity.dealer Unanimity.block = .ok record :=
  (Unanimity.exists_record (by decide) Unanimity.single).imp' _ fun _ h => h

/-- The record of one signer is read back. -/
theorem sole_signer_read_back : ∃ record, build Unanimity.dealer 0
    Unanimity.settings.kinds.registration [soleSigner] 1 Unanimity.dealer Unanimity.block =
      .ok record ∧
    ofEvent record.event Unanimity.settings.kinds.registration = .ok record := by
  obtain ⟨record, hbuild⟩ := exists_soleSigner
  exact ⟨record, hbuild, (built_read_back hbuild).2.1.mpr readable_soleSigner⟩

end KeyQuorum.Record
