import ClassForge.Proofs.PoolRoundTrip

/-! The end of a class file. A reader goes on after a short read, but does not lose its error, and a
reader that has met none has found where its part of the input ends: it takes the same part from any
input that starts with it, and meets a short read where the part breaks off. -/

namespace ClassForge.ClassFile

variable {α β : Type} {x : Reader α} {f : α → Reader β}

/-- The first short read is kept. Without one, what the reader takes does not depend on what follows,
and on every input that breaks off before its end there is one. -/
structure Delimits (x : Reader α) : Prop where
  keeps : ∀ {c : Cursor} {e : ReadError} {r : α × Cursor}, c.error = some e → x c = .ok r →
    r.2.error = some e
  ends : ∀ {c c' : Cursor} {a : α}, c.error = none → x c = .ok (a, c') → c'.error = none →
    ∃ data, c.rest = data ++ c'.rest ∧ Reads x data a ∧
      ∀ lead, lead <+: data → lead ≠ data → ∀ position r, x { rest := lead, position } = .ok r →
        r.2.error.isSome = true

theorem bind_eq_ok_iff {c : Cursor} {r : β × Cursor} :
    (x >>= f) c = .ok r ↔ ∃ a c', x c = .ok (a, c') ∧ f a c' = .ok r := by
  change (x c >>= fun p => f p.1 p.2) = .ok r ↔ _
  rw [except_bind_eq_ok]
  constructor
  · rintro ⟨⟨a, c'⟩, ha, hr⟩
    exact ⟨a, c', ha, hr⟩
  · rintro ⟨a, c', ha, hr⟩
    exact ⟨(a, c'), ha, hr⟩

theorem Delimits.throw (e : ReadError) : Delimits (throw e : Reader α) :=
  ⟨fun _ h => (by cases h), fun _ h _ => (by cases h)⟩

/-- A reader that takes nothing and leaves the cursor as it is has no input to break off. -/
theorem Delimits.of_still (hx : ∀ {c : Cursor} {r : α × Cursor}, x c = .ok r → r.2 = c)
    (hsame : ∀ {c c' : Cursor} {a : α}, c.error = none → x c = .ok (a, c') → Reads x [] a) :
    Delimits x := by
  refine ⟨fun hc h => (hx h).symm ▸ hc, fun {c c' a} hc h _ => ?_⟩
  have hrest : c'.rest = c.rest := congrArg Cursor.rest (hx h)
  refine ⟨[], by rw [List.nil_append, hrest], hsame hc h, fun lead hstart hne => ?_⟩
  exact absurd (List.prefix_nil.mp hstart) hne

theorem Delimits.lift (y : Except ReadError α) : Delimits (liftM y : Reader α) := by
  cases y with
  | error e => exact .throw e
  | ok a =>
    refine .of_still (fun h => ?_) (fun _ h => ?_)
    · cases h
      rfl
    · cases h
      exact Reads.lift rfl

theorem Delimits.pure (a : α) : Delimits (Pure.pure a : Reader α) :=
  Delimits.lift (.ok a)

theorem delimits_failed : Delimits failed := by
  refine .of_still (fun h => ?_) (fun hc h => ?_)
  · cases h
    rfl
  · cases h
    rw [hc]
    exact reads_failed

theorem delimits_check : Delimits check := by
  refine .of_still (fun {c r} h => ?_) (fun {c c' a} hc h => reads_check)
  unfold check at h
  split at h
  · cases h
  · cases h
    rfl

/-- Readers in turn find their ends one after the other. -/
theorem Delimits.bind (hx : Delimits x) (hf : ∀ a, Delimits (f a)) : Delimits (x >>= f) := by
  constructor
  · intro c e r hc h
    obtain ⟨a, c₁, ha, hr⟩ := bind_eq_ok_iff.mp h
    exact (hf a).keeps (hx.keeps hc ha) hr
  · intro c c' b hc h hc'
    obtain ⟨a, c₁, ha, hb⟩ := bind_eq_ok_iff.mp h
    -- The second reader would not have lost the error of the first.
    have hc₁ : c₁.error = none := by
      cases herror : c₁.error with
      | none => rfl
      | some e =>
        have hkept := (hf a).keeps herror hb
        rw [hc'] at hkept
        cases hkept
    obtain ⟨first, hfirst, hreads, hlead⟩ := hx.ends hc ha hc₁
    obtain ⟨second, hsecond, hreads', hlead'⟩ := (hf a).ends hc₁ hb hc'
    refine ⟨first ++ second, by rw [hfirst, hsecond, List.append_assoc], hreads.bind hreads', ?_⟩
    intro lead hstart hne position r hr
    obtain ⟨a', c₂, ha', hr⟩ := bind_eq_ok_iff.mp hr
    -- The input breaks off either in the part of the first reader or in that of the second.
    by_cases hbefore : lead <+: first ∧ lead ≠ first
    · obtain ⟨e, he⟩ := Option.isSome_iff_exists.mp
        (hlead lead hbefore.1 hbefore.2 position _ ha')
      rw [(hf a').keeps he hr]
      rfl
    · have hin : first <+: lead := by
        rcases List.prefix_or_prefix_of_prefix hstart (List.prefix_append first second) with h | h
        · rw [show lead = first from by_contra fun hne => hbefore ⟨h, hne⟩]
        · exact h
      obtain ⟨lead', rfl⟩ := hin
      rw [hreads lead' position] at ha'
      cases ha'
      rw [List.prefix_append_right_inj] at hstart
      exact hlead' lead' hstart (fun heq => hne (by rw [heq])) _ r hr

theorem Delimits.ite {p : Prop} [Decidable p] {y : Reader α} (hx : Delimits x) (hy : Delimits y) :
    Delimits (if p then x else y) := by
  split
  · exact hx
  · exact hy

theorem delimits_take (n : Nat) : Delimits (take n) := by
  constructor
  · intro c e r hc h
    simp only [take, hc, Option.isNone_some, Bool.false_eq_true, false_and, if_false] at h
    cases h
    rfl
  · rintro ⟨rest, position, error⟩ c' a hc h hc'
    cases hc
    simp only [take, Option.isNone_none, true_and] at h
    split at h
    · next htake =>
      cases h
      refine ⟨rest.take n, (List.take_append_drop n rest).symm, ?_, ?_⟩
      · have hreads := reads_take (rest.take n)
        rwa [htake] at hreads
      · intro lead hstart hne position' r hr
        have hlt : lead.length < n := by
          have hle := hstart.length_le
          rw [htake] at hle
          exact lt_of_le_of_ne hle fun heq => hne (hstart.eq_of_length (by rw [heq, htake]))
        have hshort : (lead.take n).length ≠ n := by
          rw [List.length_take]
          omega
        simp only [take, hshort, and_false, if_false] at hr
        cases hr
        rfl
    · cases h
      cases hc'

theorem delimits_number (n : Nat) : Delimits (number n) :=
  (delimits_take n).bind fun _ => .pure _

theorem delimits_u8 : Delimits u8 :=
  delimits_number 1

theorem delimits_u16 : Delimits u16 :=
  delimits_number 2

theorem delimits_u32 : Delimits u32 :=
  delimits_number 4

theorem delimits_many {item : Nat → Reader α} (h : ∀ k, Delimits (item k)) (count : Nat)
    (done : Array α) : Delimits (many item done count) := by
  induction count generalizing done with
  | zero => exact .pure done
  | succ count ih =>
    exact delimits_failed.bind fun _ => .ite (.pure done)
      ((h done.size).bind fun a => ih (done.push a))

theorem delimits_skipMany {item : Reader Unit} (h : Delimits item) (count : Nat) :
    Delimits (skipMany item count) := by
  induction count with
  | zero => exact .pure ()
  | succ count ih =>
    exact delimits_failed.bind fun _ => .ite (.pure ()) (h.bind fun _ => ih)

theorem delimits_readText : Delimits readText := by
  refine delimits_u16.bind fun n => (delimits_take n).bind fun data => ?_
  cases ModifiedUtf8.decode data with
  | ok text => exact .pure text
  | error e => exact .throw _

theorem delimits_readEntry (before : Nat) : Delimits (readEntry before) := by
  refine delimits_u8.bind fun tag => ?_
  have hone {entry : Nat → PoolEntry} : Delimits (do return some (entry (← u16))) :=
    delimits_u16.bind fun i => .pure (some (entry i))
  have htwo {entry : Nat → Nat → PoolEntry} :
      Delimits (do return some (entry (← u16) (← u16))) :=
    delimits_u16.bind fun i => delimits_u16.bind fun j => .pure (some (entry i j))
  split
  · exact delimits_readText.bind fun text => .pure (some (PoolEntry.utf8 text))
  · exact delimits_u32.bind fun n => .pure (some (PoolEntry.integer _))
  · exact hone
  · exact hone
  · exact htwo
  · exact htwo
  · exact htwo
  · exact delimits_failed.bind fun _ => .ite (.pure none) (.throw _)

theorem delimits_readPool : Delimits readPool :=
  delimits_u16.bind fun _ => .ite (.throw _) ((delimits_many delimits_readEntry _ _).bind fun _ =>
    delimits_check.bind fun _ => .pure _)

theorem delimits_skipAttribute : Delimits skipAttribute :=
  delimits_u16.bind fun _ => delimits_u32.bind fun n => (delimits_take n).bind fun _ => .pure ()

theorem delimits_ignoreAttributes : Delimits ignoreAttributes :=
  delimits_u16.bind fun count => delimits_skipMany delimits_skipAttribute count

theorem delimits_skipField : Delimits skipField :=
  (delimits_take 6).bind fun _ => delimits_ignoreAttributes

theorem delimits_readMethodAttributes (constants : Array Constant) (method : Bytes) (count : Nat)
    (code : Option CodeAttribute) : Delimits (readMethodAttributes constants method count code) := by
  induction count generalizing code with
  | zero => exact .pure code
  | succ count ih =>
    refine delimits_failed.bind fun _ => .ite (.pure code) (delimits_u16.bind fun i =>
      (Delimits.lift _).bind fun name => delimits_u32.bind fun n => (delimits_take n).bind
        fun body => delimits_failed.bind fun _ => .ite (ih code) ?_)
    cases readCode { rest := body } with
    | ok found => exact ih (some found.1)
    | error e => exact .throw _

theorem delimits_readMethod (constants : Array Constant) : Delimits (readMethod constants) := by
  refine delimits_u16.bind fun access => delimits_u16.bind fun name => delimits_u16.bind
    fun descriptor => delimits_check.bind fun _ => (Delimits.lift _).bind fun name =>
      (Delimits.lift _).bind fun descriptor => delimits_u16.bind fun count => ?_
  exact (delimits_readMethodAttributes constants _ count none).bind fun code =>
    delimits_check.bind fun _ => .pure _

theorem delimits_readMagic : Delimits readMagic :=
  delimits_u32.bind fun _ => .ite (delimits_check.bind fun _ => .throw _) (.pure ())

theorem delimits_readClass : Delimits readClass := by
  refine delimits_readMagic.bind fun _ => ?_
  refine delimits_u16.bind fun minor => delimits_u16.bind fun major => delimits_readPool.bind
    fun pool => (Delimits.lift _).bind fun constants => delimits_u16.bind fun access =>
      delimits_u16.bind fun thisIndex => delimits_u16.bind fun superIndex =>
        delimits_check.bind fun _ => (Delimits.lift _).bind fun name => ?_
  -- With or without a superclass, the reader goes on in the same way.
  refine .ite ((Delimits.pure []).bind fun superName => ?_)
    ((Delimits.lift _).bind fun superName => ?_)
  all_goals
    refine delimits_u16.bind fun interfaces => (delimits_take _).bind fun _ => delimits_u16.bind
      fun fields => (delimits_skipMany delimits_skipField fields).bind fun _ => ?_
    exact delimits_u16.bind fun count =>
      (delimits_many (fun _ => delimits_readMethod constants) count #[]).bind fun methods =>
        delimits_ignoreAttributes.bind fun _ => .pure _

theorem parse_eq_ok {data : Bytes} {c : ClassFile} (h : parse data = .ok c) :
    ∃ cursor, readClass { rest := data } = .ok (c, cursor) ∧ cursor.error = none ∧
      cursor.rest = [] := by
  unfold parse at h
  split at h
  · next c' cursor hread =>
    split at h
    · cases h
    · next hnone =>
      split at h
      · next hempty =>
        cases h
        exact ⟨cursor, hread, hnone, List.isEmpty_iff.mp hempty⟩
      · cases h
  · cases h

/-- Where a class ends is told by its own bytes: nothing may follow it, and none of its bytes may be
left out at the end. -/
theorem parse_self_delimiting {data : Bytes} {c : ClassFile} (h : parse data = .ok c) :
    (∀ more, more ≠ [] → parse (data ++ more) = .error (.trailing more.length)) ∧
      ∀ lead, lead <+: data → lead ≠ data → ∃ e, parse lead = .error e := by
  obtain ⟨cursor, hread, hnone, hrest⟩ := parse_eq_ok h
  obtain ⟨taken, htaken, hreads, hlead⟩ := delimits_readClass.ends rfl hread hnone
  rw [hrest, List.append_nil] at htaken
  cases htaken
  constructor
  · intro more hmore
    simp [parse, hreads more 0, hmore]
  · intro lead hstart hne
    cases hparse : parse lead with
    | error e => exact ⟨e, rfl⟩
    | ok c' =>
      obtain ⟨cursor', hread', hnone', -⟩ := parse_eq_ok hparse
      have hshort := hlead lead hstart hne 0 _ hread'
      rw [hnone'] at hshort
      cases hshort

/-- A class with an interface, a field with an attribute, a method with a body and an attribute. -/
def furnishedClass : Bytes :=
  [0xca, 0xfe, 0xba, 0xbe, 0, 0, 0, 0x34, 0, 5, 1, 0, 1, 0x41, 7, 0, 1, 1, 0, 4, 0x43, 0x6f, 0x64,
    0x65, 3, 0, 1, 0, 0, 0, 0x21, 0, 2, 0, 0, 0, 1, 0, 2, 0, 1, 0, 1, 0, 1, 0, 1, 0, 1, 0, 4, 0, 0,
    0, 1, 0xff, 0, 1, 0, 9, 0, 1, 0, 1, 0, 1, 0, 3, 0, 0, 0, 0x0d, 0, 1, 0, 1, 0, 0, 0, 1, 0xb1, 0,
    0, 0, 0, 0, 1, 0, 1, 0, 0, 0, 2, 0, 0]

theorem parse_self_delimiting_furnishedClass :
    (∃ c, parse furnishedClass = .ok c ∧ c.methods.size = 1) ∧
      parse (furnishedClass ++ [0]) = .error (.trailing 1) ∧
      ∃ e, parse furnishedClass.dropLast = .error e := by
  have hok : resultIs (fun c => c.methods.size == 1) (parse furnishedClass) = true := by cbv
  obtain ⟨c, hparse, hmethods⟩ := of_resultIs hok
  obtain ⟨hmore, hlead⟩ := parse_self_delimiting hparse
  exact ⟨⟨c, hparse, beq_iff_eq.mp hmethods⟩, hmore [0] (by simp),
    hlead _ (List.dropLast_prefix _) (by decide)⟩

end ClassForge.ClassFile
