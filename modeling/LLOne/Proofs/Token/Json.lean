import LLOne.Export
import LLOne.Proofs.Json.Reader
import LLOne.Proofs.Lists
import LLOne.Proofs.Token

/-!
# Tokens are read back from JSON

A member is found under its name if no other member has the name. So a reader that knows the names
of an object gets its values in their order, and one that looks for another name gets nothing. The
tokens whose positions fit into 64 bits are read back from the text of their array.
-/

namespace LLOne

namespace Json.Value

/-! ## Members -/

variable {members : List (String × Value)}

theorem namedMembers?_escape (members : List (String × Value)) :
    namedMembers? (members.map fun (name, value) => (escape name.toList, value)) =
      some members := by
  rw [namedMembers?, List.mapM_map]
  refine (mapM_eq_pure fun member _ => ?_).trans (congrArg some (List.map_id members))
  simp [unescape?_escape]

theorem memberOf?_eq_some (hn : (members.map Prod.fst).Nodup) {name : String} {value : Value}
    (h : (name, value) ∈ members) : memberOf? name members = some value := by
  have hfilter : members.filter (·.1 == name) = [(name, value)] := by
    induction members with
    | nil => cases h
    | cons member members ih =>
      rw [List.map_cons, List.nodup_cons] at hn
      rcases List.mem_cons.1 h with rfl | h
      · have hrest : members.filter (·.1 == name) = [] := by
          rw [List.filter_eq_nil_iff]
          intro other ho he
          exact hn.1 (List.mem_map.2 ⟨other, ho, beq_iff_eq.1 he⟩)
        rw [List.filter_cons_of_pos (by simp), hrest]
      · have hne : member.1 ≠ name := fun he => hn.1 (List.mem_map.2 ⟨_, h, he.symm⟩)
        rw [List.filter_cons_of_neg (by simpa using hne), ih hn.2 h]
  rw [memberOf?, hfilter]

/-- All members of an object, by their names. -/
theorem fields?_ofMembers (hn : (members.map Prod.fst).Nodup) :
    (ofMembers members).fields? (members.map Prod.fst) = some (members.map Prod.snd) := by
  rw [ofMembers, fields?, namedMembers?_escape, Option.bind_some, List.mapM_map]
  exact mapM_eq_pure fun member hm => memberOf?_eq_some hn hm

/-- An object without a member of the name. -/
theorem fields?_ofMembers_eq_none {name : String} (h : name ∉ members.map Prod.fst)
    (names : List String) : (ofMembers members).fields? (name :: names) = none := by
  have hfilter : members.filter (·.1 == name) = [] := by
    rw [List.filter_eq_nil_iff]
    intro member hm he
    exact h (List.mem_map.2 ⟨member, hm, beq_iff_eq.1 he⟩)
  have hmember : memberOf? name members = none := by rw [memberOf?, hfilter]
  rw [ofMembers, fields?, namedMembers?_escape, Option.bind_some, List.mapM_cons, hmember]
  rfl

/-! ## Numbers and strings -/

theorem position?_ofNat {n : Nat} (h : n < 2 ^ 64) : (ofNat n).position? = some n := by
  have hvalue : digitsValue (Nat.toDigits 10 n) = n :=
    Nat.ofDigitChars_toDigits (by decide) (by decide)
  rw [ofNat, position?, if_pos, hvalue]
  exact ⟨List.all_eq_true.2 (isDigit_toDigits n), hvalue.symm ▸ h⟩

theorem text?_ofString (text : String) : (ofString text).text? = some text := by
  rw [ofString, text?, unescape?_escape, Option.map_some, String.ofList_toList]

end Json.Value

open Json

/-! ## Tokens -/

theorem Location.ofJson?_toJson {l : Location} (h : l.Fits) : ofJson? l.toJson = some l := by
  have hfields : l.toJson.fields? ["start", "end"] = some [.ofNat l.start, .ofNat l.stop] :=
    Value.fields?_ofMembers (show ["start", "end"].Nodup by decide)
  simp [ofJson?, hfields, Value.position?_ofNat h.1, Value.position?_ofNat h.2]

theorem TokenKind.ofJson?_toJson (kind : TokenKind) : ofJson? kind.toJson = some kind := by
  have hname : ofName? kind.name = some kind := by cases kind <;> decide
  change (Value.ofString kind.name).text?.bind ofName? = some kind
  rw [Value.text?_ofString, Option.bind_some, hname]

namespace Token

theorem ofJson?_toJson {t : Token} (h : t.location.Fits) : ofJson? t.toJson = some t := by
  have hfields : t.toJson.fields? ["location", "kind", "text"] =
      some [t.location.toJson, t.kind.toJson, .ofString t.text] :=
    Value.fields?_ofMembers (show ["location", "kind", "text"].Nodup by decide)
  simp [ofJson?, hfields, Location.ofJson?_toJson h, TokenKind.ofJson?_toJson, Value.text?_ofString]

theorem written_toJson (t : Token) : t.toJson.Written := by
  have hlocation : t.location.toJson.Written :=
    .object (by simpa using ⟨.number t.location.start, .number t.location.stop⟩)
  exact .object (by simpa using ⟨hlocation, .string t.kind.name, .string t.text⟩)

/-- The tokens of a list are read from the text of their array. -/
theorem readList?_toJson {tokens : List Token} (h : ∀ t ∈ tokens, t.location.Fits) :
    readList? (Value.array (tokens.map toJson)).text = some tokens := by
  have hwritten : (Value.array (tokens.map toJson)).Written :=
    .array (List.forall_mem_map.2 fun t _ => t.written_toJson)
  have hlist : listOfJson? (.array (tokens.map toJson)) = some tokens := by
    have htokens := mapM_eq_pure fun t ht => ofJson?_toJson (h t ht)
    rw [List.map_id'] at htokens
    rwa [listOfJson?, List.mapM_map]
  rw [readList?, hwritten.read?_text, Option.bind_some, hlist]

end Token

end LLOne
