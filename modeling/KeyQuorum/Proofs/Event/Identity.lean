import Mathlib.Tactic.Lemma
import KeyQuorum.Event.Basic
import KeyQuorum.Proofs.Key.Reading
import KeyQuorum.Proofs.Text.Json

/-!
What an event's id and its text tell of it.

The text that is hashed to the id of a draft is an array of all that the draft says, and the text
of an event is an object of all that the event says. Both can be told apart value by value, so
they are different for different drafts and events. Two drafts with one id are then the same, or
their texts are a collision of the hash.
-/

namespace KeyQuorum

/-- Two messages with the same hash. -/
structure Sha256.Collision (m m' : Bytes) : Prop where
  ne : m ≠ m'
  hash : Sha256.hash m = Sha256.hash m'

lemma Hex.encode_injective : Function.Injective Hex.encode := fun bs bs' h =>
  Option.some.inj ((Hex.decode_encode bs).symm.trans (h ▸ Hex.decode_encode bs'))

lemma PublicKey.hex_injective : Function.Injective PublicKey.hex := fun k k' h =>
  Except.ok.inj ((PublicKey.ofHex_hex k).symm.trans (h ▸ PublicKey.ofHex_hex k'))

lemma Block.hex_injective {n : Nat} :
    Function.Injective fun b : Block n => Hex.encode b.bytes :=
  fun _ _ h => Block.ext_bytes (Hex.encode_injective h)

open Json

variable {d d' : Draft} {e e' : Event}

lemma Draft.idText_eq (d : Draft) : d.idText =
    array [number 0, string d.author.hex, number d.createdAt.toNat, number d.kind.toNat,
      lists d.tags, string d.content] :=
  rfl

/-- **A draft is known by the text** that is hashed to its id. -/
theorem Draft.eq_of_idText (h : d.idText = d'.idText) : d = d' := by
  rw [idText_eq, idText_eq] at h
  simp only [array, commas, List.cons_append, List.append_assoc] at h
  -- The values are read off one after the other, each up to the comma or bracket behind it.
  obtain ⟨-, h⟩ := delimits_number (.comma _) (.comma _) (List.cons.inj h).2
  obtain ⟨hauthor, h⟩ := string_append_inj (List.cons.inj h).2
  obtain ⟨htime, h⟩ := delimits_number (.comma _) (.comma _) (List.cons.inj h).2
  obtain ⟨hkind, h⟩ := delimits_number (.comma _) (.comma _) (List.cons.inj h).2
  obtain ⟨htags, h⟩ := delimits_lists (.comma _) (.comma _) (List.cons.inj h).2
  obtain ⟨hcontent, -⟩ := string_append_inj (List.cons.inj h).2
  obtain ⟨author, createdAt, kind, tags, content⟩ := d
  obtain rfl : author = d'.author := PublicKey.hex_injective hauthor
  obtain rfl : createdAt = d'.createdAt := UInt64.toNat_inj.mp htime
  obtain rfl : kind = d'.kind := UInt16.toNat_inj.mp hkind
  obtain rfl : tags = d'.tags := htags
  obtain rfl : content = d'.content := hcontent
  rfl

/-- **An event is known by its text.** -/
theorem Event.eq_of_toJson (h : e.toJson = e'.toJson) : e = e' := by
  have htags (e : Event) : array (e.draft.tags.map strings) = lists e.draft.tags := rfl
  simp only [toJson, htags, object, commas, List.map_cons, List.map_nil, List.cons_append,
    List.append_assoc] at h
  obtain ⟨hcontent, h⟩ := delimits_string.field _ (.comma _) (.comma _) (List.cons.inj h).2
  obtain ⟨htime, h⟩ := delimits_number.field _ (.comma _) (.comma _) (List.cons.inj h).2
  obtain ⟨hid, h⟩ := delimits_string.field _ (.comma _) (.comma _) (List.cons.inj h).2
  obtain ⟨hkind, h⟩ := delimits_number.field _ (.comma _) (.comma _) (List.cons.inj h).2
  obtain ⟨hauthor, h⟩ := delimits_string.field _ (.comma _) (.comma _) (List.cons.inj h).2
  obtain ⟨hsignature, h⟩ := delimits_string.field _ (.comma _) (.comma _) (List.cons.inj h).2
  obtain ⟨htags, -⟩ := delimits_lists.field _ (.brace _) (.brace _) (List.cons.inj h).2
  obtain ⟨⟨author, createdAt, kind, tags, content⟩, id, signature⟩ := e
  obtain rfl : author = e'.draft.author := PublicKey.hex_injective hauthor
  obtain rfl : createdAt = e'.draft.createdAt := UInt64.toNat_inj.mp htime
  obtain rfl : kind = e'.draft.kind := UInt16.toNat_inj.mp hkind
  obtain rfl : tags = e'.draft.tags := htags
  obtain rfl : content = e'.draft.content := hcontent
  obtain rfl : id = e'.id := Block.hex_injective hid
  obtain rfl : signature = e'.signature := Block.hex_injective hsignature
  rfl

lemma Draft.eq_or_collision (h : d.id = d'.id) :
    d = d' ∨ Sha256.Collision (utf8 d.idText) (utf8 d'.idText) := by
  by_cases heq : d = d'
  · exact .inl heq
  · exact .inr ⟨fun hbytes => heq (eq_of_idText (utf8_injective hbytes)), h⟩

/-- **Ids and texts are unambiguous.** The text under the hash is the same only for the same
author, time, kind, tags and content, whatever they are, and the text of an event only for the
same event. So only a collision of the hash gives one id to two drafts. -/
theorem Event.texts_unambiguous :
    (∀ d d' : Draft, d.idText = d'.idText ↔ d = d') ∧
    (∀ e e' : Event, e.toJson = e'.toJson ↔ e = e') ∧
    ∀ d d' : Draft, d.id = d'.id ↔
      d = d' ∨ Sha256.Collision (utf8 d.idText) (utf8 d'.idText) := by
  refine ⟨fun d d' => ⟨Draft.eq_of_idText, congrArg _⟩,
    fun e e' => ⟨Event.eq_of_toJson, congrArg _⟩, fun d d' => ⟨Draft.eq_or_collision, ?_⟩⟩
  rintro (rfl | hcollision)
  · rfl
  · exact hcollision.hash

end KeyQuorum
