namespace SimpleLR

variable {α β ε : Type}

theorem exists_ok_of_any {r : Except ε α} {p : α → Bool} (h : r.toOption.any p) :
    ∃ a, r = .ok a ∧ p a := by
  cases r with
  | error e => cases h
  | ok a => exact ⟨a, rfl, h⟩

theorem exists_error_of_any {r : Except ε α} {p : ε → Bool}
    (h : (match r with | .error e => p e | .ok _ => false : Bool)) : ∃ e, r = .error e ∧ p e := by
  cases r with
  | error e => exact ⟨e, rfl, h⟩
  | ok a => cases h

theorem bind_eq_ok_iff {r : Except ε α} {f : α → Except ε β} {b : β} :
    r >>= f = .ok b ↔ ∃ a, r = .ok a ∧ f a = .ok b := by
  cases r <;> simp [bind, Except.bind]

theorem bind_eq_error_iff {r : Except ε α} {f : α → Except ε β} {e : ε} :
    r >>= f = .error e ↔ r = .error e ∨ ∃ a, r = .ok a ∧ f a = .error e := by
  cases r <;> simp [bind, Except.bind]

theorem eq_error_of_bind_pure {r : Except ε α} {f : α → β} {e : ε}
    (h : (r >>= fun a => pure (f a)) = .error e) : r = .error e := by
  cases r with
  | error e' =>
    obtain rfl : e' = e := Except.error.inj h
    rfl
  | ok a => cases h

variable {f : α → Except ε β} {as : List α} {bs : List β}

theorem mapM_cons_eq_ok_iff {a : α} :
    (a :: as).mapM f = .ok bs ↔ ∃ c cs, bs = c :: cs ∧ f a = .ok c ∧ as.mapM f = .ok cs := by
  rw [List.mapM_cons]
  cases ha : f a with
  | error e => simp [bind, Except.bind]
  | ok c =>
    cases has : as.mapM f with
    | error e => simp [bind, Except.bind]
    | ok cs => simp [bind, Except.bind, pure, Except.pure, eq_comm]

theorem getElem?_of_mapM_eq_ok (h : as.mapM f = .ok bs) (i : Nat) :
    (as[i]? = none ∧ bs[i]? = none) ∨ ∃ a b, as[i]? = some a ∧ bs[i]? = some b ∧ f a = .ok b := by
  induction as generalizing bs i with
  | nil =>
    obtain rfl : [] = bs := Except.ok.inj h
    exact .inl ⟨rfl, rfl⟩
  | cons a as ih =>
    obtain ⟨c, cs, rfl, ha, has⟩ := mapM_cons_eq_ok_iff.1 h
    cases i with
    | zero => exact .inr ⟨a, c, rfl, rfl, ha⟩
    | succ i => exact ih has i

theorem length_of_mapM_eq_ok (h : as.mapM f = .ok bs) : bs.length = as.length := by
  induction as generalizing bs with
  | nil =>
    obtain rfl : [] = bs := Except.ok.inj h
    rfl
  | cons a as ih =>
    obtain ⟨c, cs, rfl, -, has⟩ := mapM_cons_eq_ok_iff.1 h
    rw [List.length_cons, List.length_cons, ih has]

theorem mapM_eq_ok_of_getElem? (hlength : as.length = bs.length)
    (h : ∀ (i : Nat) a b, as[i]? = some a → bs[i]? = some b → f a = .ok b) :
    as.mapM f = .ok bs := by
  induction as generalizing bs with
  | nil =>
    obtain rfl := List.eq_nil_of_length_eq_zero hlength.symm
    rfl
  | cons a as ih =>
    cases bs with
    | nil => cases hlength
    | cons b bs =>
      have hhead := h 0 a b rfl rfl
      have htail := ih (Nat.succ.inj hlength) fun i => h (i + 1)
      exact mapM_cons_eq_ok_iff.2 ⟨b, bs, rfl, hhead, htail⟩

theorem exists_sublist_of_mapM_eq_ok {as' : List α} (hs : as'.Sublist as)
    (h : as.mapM f = .ok bs) : ∃ bs', as'.mapM f = .ok bs' ∧ bs'.Sublist bs := by
  induction hs generalizing bs with
  | slnil => exact ⟨bs, h, .refl bs⟩
  | cons a _ ih =>
    obtain ⟨c, cs, rfl, -, has⟩ := mapM_cons_eq_ok_iff.1 h
    obtain ⟨bs', hbs', hsub⟩ := ih has
    exact ⟨bs', hbs', hsub.cons c⟩
  | cons_cons a _ ih =>
    obtain ⟨c, cs, rfl, ha, has⟩ := mapM_cons_eq_ok_iff.1 h
    obtain ⟨bs', hbs', hsub⟩ := ih has
    exact ⟨c :: bs', mapM_cons_eq_ok_iff.2 ⟨c, bs', rfl, ha, hbs'⟩, hsub.cons_cons c⟩

theorem mem_of_mapM_eq_ok (h : as.mapM f = .ok bs) {b : β} (hb : b ∈ bs) :
    ∃ a ∈ as, f a = .ok b := by
  obtain ⟨i, hi⟩ := List.mem_iff_getElem?.1 hb
  rcases getElem?_of_mapM_eq_ok h i with ⟨_, hnone⟩ | ⟨a, c, ha, hc, hf⟩
  · cases hi.symm.trans hnone
  · obtain rfl := Option.some.inj (hi.symm.trans hc)
    exact ⟨a, List.mem_of_getElem? ha, hf⟩

theorem exists_mem_of_mapM_eq_ok (h : as.mapM f = .ok bs) {a : α} (ha : a ∈ as) :
    ∃ b ∈ bs, f a = .ok b := by
  obtain ⟨i, hi⟩ := List.mem_iff_getElem?.1 ha
  rcases getElem?_of_mapM_eq_ok h i with ⟨hnone, _⟩ | ⟨c, b, hc, hb, hf⟩
  · cases hi.symm.trans hnone
  · obtain rfl := Option.some.inj (hi.symm.trans hc)
    exact ⟨b, List.mem_of_getElem? hb, hf⟩

theorem mapM_eq_error_iff {e : ε} : as.mapM f = .error e ↔
    ∃ before a after, as = before ++ a :: after ∧ (∀ b ∈ before, ∃ c, f b = .ok c) ∧
      f a = .error e := by
  induction as with
  | nil =>
    refine ⟨nofun, ?_⟩
    intro h
    obtain ⟨before, a, after, he, -⟩ := h
    exact absurd he.symm (List.append_ne_nil_of_right_ne_nil _ (List.cons_ne_nil a after))
  | cons a as ih =>
    rw [List.mapM_cons, bind_eq_error_iff]
    constructor
    · intro h
      rcases h with ha | ⟨c, ha, has⟩
      · exact ⟨[], a, as, rfl, fun b hb => absurd hb List.not_mem_nil, ha⟩
      · obtain ⟨before, b, after, rfl, hbefore, hb⟩ := ih.1 (eq_error_of_bind_pure has)
        exact ⟨a :: before, b, after, rfl, List.forall_mem_cons.2 ⟨⟨c, ha⟩, hbefore⟩, hb⟩
    · intro h
      obtain ⟨before, b, after, he, hbefore, hb⟩ := h
      cases before with
      | nil =>
        obtain ⟨rfl, rfl⟩ := List.cons.inj he
        exact .inl hb
      | cons a' before =>
        obtain ⟨rfl, rfl⟩ := List.cons.inj he
        obtain ⟨⟨c, ha⟩, hbefore⟩ := List.forall_mem_cons.1 hbefore
        refine .inr ⟨c, ha, ?_⟩
        rw [ih.2 ⟨before, b, after, rfl, hbefore, hb⟩]
        rfl

/-- In a list that is in order, the call that fails first comes before all others that fail. -/
theorem exists_first_of_mapM_eq_error {e : ε} {R : α → α → Prop} (hR : as.Pairwise R)
    (h : as.mapM f = .error e) :
    ∃ a ∈ as, f a = .error e ∧ ∀ b ∈ as, (¬ ∃ c, f b = .ok c) → a = b ∨ R a b := by
  obtain ⟨before, a, after, rfl, hbefore, ha⟩ := mapM_eq_error_iff.1 h
  refine ⟨a, List.mem_append_right before List.mem_cons_self, ha, ?_⟩
  intro b hb hfails
  rcases List.mem_append.1 hb with hb | hb
  · exact absurd (hbefore b hb) hfails
  · rcases List.mem_cons.1 hb with rfl | hb
    · exact .inl rfl
    · have hafter := (List.pairwise_append.1 hR).2.1
      exact .inr (List.rel_of_pairwise_cons hafter hb)

theorem exists_mem_of_mapM_eq_error {e : ε} (h : as.mapM f = .error e) :
    ∃ a ∈ as, f a = .error e := by
  obtain ⟨before, a, after, rfl, -, ha⟩ := mapM_eq_error_iff.1 h
  exact ⟨a, List.mem_append_right before List.mem_cons_self, ha⟩

theorem exists_mapM_eq_ok (h : ∀ a ∈ as, ∃ b, f a = .ok b) : ∃ bs, as.mapM f = .ok bs := by
  cases has : as.mapM f with
  | ok bs => exact ⟨bs, rfl⟩
  | error e =>
    obtain ⟨a, ha, hf⟩ := exists_mem_of_mapM_eq_error has
    obtain ⟨b, hb⟩ := h a ha
    cases hf.symm.trans hb

theorem foldlM_induction {σ : Type} {f : σ → α → Except ε σ} {P : σ → Prop} {s s' : σ}
    (h : as.foldlM f s = .ok s') (hs : P s)
    (hstep : ∀ s a m, P s → a ∈ as → f s a = .ok m → P m) : P s' := by
  induction as generalizing s with
  | nil =>
    obtain rfl : s = s' := Except.ok.inj h
    exact hs
  | cons a as ih =>
    rw [List.foldlM_cons] at h
    cases hf : f s a with
    | error e =>
      rw [hf] at h
      cases h
    | ok m =>
      rw [hf] at h
      have hm : P m := hstep s a m hs List.mem_cons_self hf
      exact ih h hm fun s b m hs hb => hstep s b m hs (List.mem_cons_of_mem a hb)

theorem foldlM_eq_ok_iff {σ : Type} {f : σ → α → Except ε σ} {R : σ → List α → σ → Prop}
    (hnil : ∀ s s', R s [] s' ↔ s = s')
    (hcons : ∀ s a as s', R s (a :: as) s' ↔ ∃ m, f s a = .ok m ∧ R m as s') {s s' : σ} :
    as.foldlM f s = .ok s' ↔ R s as s' := by
  induction as generalizing s with
  | nil =>
    rw [hnil]
    exact ⟨Except.ok.inj, congrArg _⟩
  | cons a as ih =>
    rw [List.foldlM_cons, hcons]
    cases f s a with
    | error e => simp [bind, Except.bind]
    | ok m => simp [bind, Except.bind, ih]

theorem foldlM_eq_error_iff {σ : Type} {f : σ → α → Except ε σ} {s : σ} {e : ε} :
    as.foldlM f s = .error e ↔
      ∃ before a after m, as = before ++ a :: after ∧ before.foldlM f s = .ok m ∧
        f m a = .error e := by
  constructor
  · intro h
    induction as generalizing s with
    | nil => cases h
    | cons a as ih =>
      rw [List.foldlM_cons, bind_eq_error_iff] at h
      rcases h with ha | ⟨m, ha, has⟩
      · exact ⟨[], a, as, s, rfl, rfl, ha⟩
      · obtain ⟨before, b, after, m', rfl, hbefore, hb⟩ := ih has
        refine ⟨a :: before, b, after, m', rfl, ?_, hb⟩
        rw [List.foldlM_cons, ha]
        exact hbefore
  · intro h
    obtain ⟨before, a, after, m, rfl, hbefore, ha⟩ := h
    have hrest : (a :: after).foldlM f m = .error e := by
      rw [List.foldlM_cons, ha]
      rfl
    rw [List.foldlM_append, hbefore]
    exact hrest

end SimpleLR
