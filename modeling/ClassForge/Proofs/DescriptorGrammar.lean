import ClassForge.Descriptor
import ClassForge.Proofs.Lexemes

/-! The grammar of descriptors. The words of a descriptor are found exactly if it follows the
grammar, but for one case: behind a result that is `V`, a method descriptor may go on in any way. -/

namespace ClassForge.Descriptor

/-- A field type, with the words that a value of the type takes. -/
inductive FieldType : Bytes → Nat → Prop
  | single {b : UInt8} (h : b ∈ ("BCFISZ" : Bytes)) : FieldType [b] 1
  | double {b : UInt8} (h : b ∈ ("DJ" : Bytes)) : FieldType [b] 2
  | object {name : Bytes} (h : 0x3b ∉ name) : FieldType ("L" ++ name ++ ";") 1
  | array {t : Bytes} {words : Nat} (h : FieldType t words) : FieldType ("[" ++ t) 1

/-- Field types one after another, with the words of all of them. -/
inductive FieldTypes : Bytes → Nat → Prop
  | nil : FieldTypes [] 0
  | cons {t ts : Bytes} {words total : Nat} (h : FieldType t words) (hs : FieldTypes ts total) :
      FieldTypes (t ++ ts) (words + total)

/-- A method type, with the words of its arguments and of its result. -/
inductive MethodType : Bytes → Nat → Nat → Prop
  | void {ts : Bytes} {args : Nat} (h : FieldTypes ts args) :
      MethodType ("(" ++ ts ++ ")" ++ "V") args 0
  | value {ts t : Bytes} {args words : Nat} (h : FieldTypes ts args) (ht : FieldType t words) :
      MethodType ("(" ++ ts ++ ")" ++ t) args words

theorem singles_eq : ("BCFISZ" : Bytes) = [0x42, 0x43, 0x46, 0x49, 0x53, 0x5a] := by decide

theorem doubles_eq : ("DJ" : Bytes) = [0x44, 0x4a] := by decide

theorem object_eq (name : Bytes) : ("L" ++ name ++ ";" : Bytes) = 0x4c :: (name ++ [0x3b]) := rfl

theorem parens_eq (ts result : Bytes) :
    ("(" ++ ts ++ ")" ++ result : Bytes) = 0x28 :: (ts ++ 0x29 :: result) := by
  rw [List.append_assoc]
  rfl

variable {whole s t ts rest : Bytes} {b : UInt8} {words length total args ret : Nat}

/-- No field type starts with a closing parenthesis or with `V`. -/
theorem FieldType.exists_cons (h : FieldType t words) :
    ∃ b t', t = b :: t' ∧ b ≠ 0x29 ∧ b ≠ 0x56 := by
  cases h with
  | single h =>
    rw [singles_eq] at h
    refine ⟨_, [], rfl, ?_, ?_⟩ <;> (rintro rfl; simp at h)
  | double h =>
    rw [doubles_eq] at h
    refine ⟨_, [], rfl, ?_, ?_⟩ <;> (rintro rfl; simp at h)
  | object h => exact ⟨0x4c, _, rfl, by decide, by decide⟩
  | array h => exact ⟨0x5b, _, rfl, by decide, by decide⟩

theorem fieldType_single (h : b ∈ ("BCFISZ" : Bytes)) :
    fieldType whole (b :: rest) = .ok (1, 1) := by
  rw [singles_eq] at h
  simp only [fieldType, h, if_true]

theorem fieldType_double (h : b ∈ ("DJ" : Bytes)) : fieldType whole (b :: rest) = .ok (2, 1) := by
  rw [doubles_eq] at h
  have hsingle : b ∉ ([0x42, 0x43, 0x46, 0x49, 0x53, 0x5a] : Bytes) := by
    rcases List.mem_pair.mp h with rfl | rfl <;> decide
  simp only [fieldType, hsingle, h, if_true, if_false]

/-- A field type is found where it stands, whatever follows it. -/
theorem fieldType_append (whole : Bytes) (h : FieldType t words) (rest : Bytes) :
    fieldType whole (t ++ rest) = .ok (words, t.length) := by
  induction h with
  | single h => exact fieldType_single h
  | double h => exact fieldType_double h
  | @object name h =>
    have hclose : (name ++ 0x3b :: rest).idxOf? 0x3b = some name.length :=
      Bytes.idxOf?_eq_some_iff.mpr ⟨name, rest, rfl, h, rfl⟩
    rw [object_eq]
    simp [fieldType, hclose]
  | @array t words h ih =>
    change fieldType whole (0x5b :: (t ++ rest)) = .ok (1, t.length + 1)
    simp [fieldType, ih]

theorem exists_of_fieldType (h : fieldType whole s = .ok (words, length)) :
    ∃ t rest, s = t ++ rest ∧ FieldType t words ∧ t.length = length := by
  induction s generalizing words length with
  | nil => cases h
  | cons b s ih =>
    simp only [fieldType, ← singles_eq, ← doubles_eq] at h
    split at h
    · next hb =>
      cases h
      exact ⟨[b], s, rfl, .single hb, rfl⟩
    split at h
    · next hb =>
      cases h
      exact ⟨[b], s, rfl, .double hb, rfl⟩
    split at h
    · next hb =>
      subst hb
      split at h
      · next i hi =>
        cases h
        obtain ⟨name, rest, rfl, hname, rfl⟩ := Bytes.idxOf?_eq_some_iff.mp hi
        have hobject := FieldType.object hname
        rw [object_eq] at hobject
        exact ⟨_, rest, by simp, hobject, by simp⟩
      · cases h
    split at h
    · next hb =>
      subst hb
      split at h
      · next size inner hinner =>
        cases h
        obtain ⟨t, rest, rfl, ht, rfl⟩ := ih hinner
        exact ⟨_, rest, rfl, .array ht, rfl⟩
      · cases h
    · cases h

theorem fieldWords_eq_ok_iff : fieldWords s = .ok words ↔ FieldType s words := by
  constructor
  · intro h
    unfold fieldWords at h
    split at h
    · next size length hfield =>
      split at h
      · next hlength =>
        cases h
        obtain ⟨t, rest, rfl, ht, rfl⟩ := exists_of_fieldType hfield
        have hrest : rest = [] := by simpa using hlength
        rwa [hrest, List.append_nil]
      · cases h
    · cases h
  · intro h
    have hfield := fieldType_append s h []
    rw [List.append_nil] at hfield
    simp only [fieldWords, hfield, if_true]

theorem arguments_skip (skip : Nat) :
    arguments whole total skip s = arguments whole total 0 (s.drop skip) := by
  induction s generalizing skip with
  | nil => simp [arguments]
  | cons b s ih =>
    cases skip with
    | zero => rfl
    | succ skip => exact ih skip

theorem arguments_append (h : FieldType t words) (s : Bytes) :
    arguments whole total 0 (t ++ s) = arguments whole (total + words) 0 s := by
  have hfield := fieldType_append whole h s
  obtain ⟨b, t', rfl, hb, -⟩ := h.exists_cons
  simp only [List.cons_append] at hfield ⊢
  rw [arguments, if_neg hb, hfield]
  simp only [List.length_cons, Nat.add_sub_cancel, arguments_skip t'.length, List.drop_left]

theorem arguments_close (whole : Bytes) (total : Nat) (h : FieldTypes ts args) (rest : Bytes) :
    arguments whole total 0 (ts ++ 0x29 :: rest) = .ok (total + args, rest) := by
  induction h generalizing total with
  | nil => rfl
  | @cons t ts words args h hs ih =>
    rw [List.append_assoc, arguments_append h, ih, Nat.add_assoc]

theorem exists_of_arguments (h : arguments whole total 0 s = .ok (args, rest)) :
    ∃ ts words, s = ts ++ 0x29 :: rest ∧ FieldTypes ts words ∧ args = total + words := by
  induction hn : s.length using Nat.strong_induction_on generalizing s total with
  | h n ih =>
    cases s with
    | nil => cases h
    | cons b s =>
      by_cases hb : b = 0x29
      · subst hb
        cases h
        exact ⟨[], 0, rfl, .nil, rfl⟩
      · cases hfield : fieldType whole (b :: s) with
        | error e => simp [arguments, hb, hfield] at h
        | ok found =>
          obtain ⟨words, length⟩ := found
          obtain ⟨t, s', hs, ht, -⟩ := exists_of_fieldType hfield
          obtain ⟨c, t', rfl, -, -⟩ := ht.exists_cons
          -- A field type is not empty, so the scan gets shorter.
          have hshorter : s'.length < n := by
            rw [← hn, hs, List.length_append, List.length_cons]
            omega
          rw [hs, arguments_append ht] at h
          obtain ⟨ts, more, rfl, hts, rfl⟩ := ih s'.length hshorter h rfl
          refine ⟨c :: t' ++ ts, words + more, ?_, .cons ht hts, Nat.add_assoc ..⟩
          rw [hs, List.append_assoc]

/-- What stands behind the arguments is `V` and anything else, or one field type. -/
theorem methodWords_eq_ok_iff : methodWords s = .ok (args, ret) ↔
    ∃ ts result, s = "(" ++ ts ++ ")" ++ result ∧ FieldTypes ts args ∧
      (ret = 0 ∧ ("V" : Bytes) <+: result ∨ FieldType result ret) := by
  constructor
  · intro h
    unfold methodWords at h
    split at h
    · next d rest =>
      split at h
      · cases h
      · next args' rest' hargs =>
        cases h
        obtain ⟨ts, words, rfl, hts, rfl⟩ := exists_of_arguments hargs
        rw [Nat.zero_add]
        exact ⟨ts, 0x56 :: rest', (parens_eq ts _).symm, hts, .inl ⟨rfl, rest', rfl⟩⟩
      · next args' result _ hargs =>
        obtain ⟨ts, words, rfl, hts, rfl⟩ := exists_of_arguments hargs
        split at h
        · cases h
        · next size length hfield =>
          split at h
          · next hlength =>
            cases h
            obtain ⟨t, rest, rfl, ht, rfl⟩ := exists_of_fieldType hfield
            have hrest : t ++ rest = t := by simpa using hlength
            rw [Nat.zero_add]
            exact ⟨ts, t ++ rest, (parens_eq ts _).symm, hts, .inr (by rwa [hrest])⟩
          · cases h
    · cases h
  · rintro ⟨ts, result, rfl, hts, hresult⟩
    rw [parens_eq]
    have hargs := arguments_close (0x28 :: (ts ++ 0x29 :: result)) 0 hts result
    rw [Nat.zero_add] at hargs
    rcases hresult with ⟨rfl, rest, rfl⟩ | ht
    · have hvoid : ("V" : Bytes) ++ rest = 0x56 :: rest := rfl
      rw [hvoid] at hargs ⊢
      simp only [methodWords, hargs]
    · have hfield := fieldType_append (0x28 :: (ts ++ 0x29 :: result)) ht []
      rw [List.append_nil] at hfield
      obtain ⟨b, t, rfl, -, hb⟩ := ht.exists_cons
      simp [methodWords, hargs, hfield, hb]

theorem FieldTypes.result_unique {ts' result result' : Bytes} (h : FieldTypes ts args)
    (h' : FieldTypes ts' total) (heq : ts ++ 0x29 :: result = ts' ++ 0x29 :: result') :
    args = total ∧ result = result' := by
  have hclose := arguments_close [] 0 h result
  rw [heq, arguments_close [] 0 h' result'] at hclose
  simpa [eq_comm] using hclose

theorem MethodType.exists_void (h : MethodType s args 0) :
    ∃ ts, FieldTypes ts args ∧ s = "(" ++ ts ++ ")" ++ "V" := by
  generalize hret : 0 = ret at h
  cases h with
  | void h => exact ⟨_, h, rfl⟩
  | value h ht => cases ht <;> cases hret

theorem MethodType.not_append {args' : Nat} (h : MethodType s args 0) (hrest : rest ≠ []) :
    ¬ MethodType (s ++ rest) args' ret := by
  obtain ⟨ts, hts, rfl⟩ := h.exists_void
  rw [List.append_assoc, parens_eq]
  intro hmethod
  generalize hd : 0x28 :: (ts ++ 0x29 :: (Bytes.ofString "V" ++ rest)) = d at hmethod
  cases hmethod with
  | void hts' =>
    rw [parens_eq] at hd
    have hresult := (hts.result_unique hts' (List.cons.inj hd).2).2
    exact hrest (List.append_right_eq_self.mp hresult)
  | value hts' ht =>
    rw [parens_eq] at hd
    have hresult := (hts.result_unique hts' (List.cons.inj hd).2).2
    obtain ⟨b, t, rfl, -, hb⟩ := ht.exists_cons
    exact hb (List.cons.inj hresult).1.symm

/-- The words of a field descriptor are found exactly if it is one field type. Those of a method
descriptor are found exactly if it is a method type, or if it goes on behind one whose result is
`V`, so that it is no method type itself. -/
theorem words_follow_grammar (d : Bytes) :
    (∀ words, fieldWords d = .ok words ↔ FieldType d words) ∧
    (∀ args ret, methodWords d = .ok (args, ret) ↔ MethodType d args ret ∨
      ret = 0 ∧ ∃ void rest, rest ≠ [] ∧ d = void ++ rest ∧ MethodType void args 0) ∧
    ∀ void rest args, rest ≠ [] → d = void ++ rest → MethodType void args 0 →
      ∀ args' ret, ¬ MethodType d args' ret := by
  refine ⟨fun words => fieldWords_eq_ok_iff, fun args ret => ?_, ?_⟩
  · rw [methodWords_eq_ok_iff]
    constructor
    · rintro ⟨ts, result, rfl, hts, ⟨rfl, rest, rfl⟩ | ht⟩
      · by_cases hrest : rest = []
        · subst hrest
          exact .inl (.void hts)
        · refine .inr ⟨rfl, _, rest, hrest, ?_, .void hts⟩
          rw [List.append_assoc _ (Bytes.ofString "V")]
      · exact .inl (.value hts ht)
    · rintro (h | ⟨rfl, void, rest, -, rfl, hvoid⟩)
      · cases h with
        | void hts => exact ⟨_, _, rfl, hts, .inl ⟨rfl, List.prefix_refl _⟩⟩
        | value hts ht => exact ⟨_, _, rfl, hts, .inr ht⟩
      · obtain ⟨ts, hts, rfl⟩ := hvoid.exists_void
        exact ⟨ts, _, List.append_assoc .., hts, .inl ⟨rfl, List.prefix_append ..⟩⟩
  · rintro void rest args hrest rfl hvoid args' ret
    exact hvoid.not_append hrest

/-- A method descriptor that goes on behind its result of `V` is taken for one without arguments and
without a result. -/
theorem methodWords_trailing :
    methodWords "()VV" = .ok (0, 0) ∧ ∀ args ret, ¬ MethodType "()VV" args ret := by
  have hvoid : MethodType "()V" 0 0 := .void .nil
  refine ⟨by decide, fun args ret => ?_⟩
  exact hvoid.not_append (List.cons_ne_nil 0x56 [])

end ClassForge.Descriptor
