import ZoraVM.Foundation.Words

namespace ZoraVM.Foundation

section Settling

variable {ε α : Type} {call : Nat → Except ε (Option α)} {r r' : α}

-- With enough fuel the call returns.
def Settles (call : Nat → Except ε (Option α)) (r : α) : Prop :=
  ∃ enough, ∀ fuel, enough ≤ fuel → call fuel = .ok (some r)

def Ends (call : Nat → Except ε (Option α)) : Prop :=
  ∃ enough, ∀ fuel, enough ≤ fuel → call fuel ≠ .ok none

theorem Settles.unique (h : Settles call r) (h' : Settles call r') : r = r' := by
  obtain ⟨n, hn⟩ := h
  obtain ⟨m, hm⟩ := h'
  have heq := (hn (max n m) (Nat.le_max_left n m)).symm.trans (hm (max n m) (Nat.le_max_right n m))
  exact Option.some.inj (Except.ok.inj heq)

theorem settles_map_iff {β : Type} {g : α → β} (hg : Function.Injective g) :
    Settles (fun fuel => Option.map g <$> call fuel) (g r) ↔ Settles call r := by
  constructor
  · rintro ⟨enough, hcall⟩
    refine ⟨enough, fun fuel hfuel => ?_⟩
    obtain ⟨found, hrun, hfound⟩ := Outcome.map_eq_ok.mp (hcall fuel hfuel)
    obtain ⟨r', rfl, heq⟩ := Option.map_eq_some_iff.mp hfound
    rw [hrun, hg heq]
  · rintro ⟨enough, hcall⟩
    exact ⟨enough, fun fuel hfuel => Outcome.map_eq_ok.mpr ⟨some r, hcall fuel hfuel, rfl⟩⟩

theorem Settles.pure (r : α) : Settles (fun _ => (Pure.pure r : OptionT (Except ε) α).run) r :=
  ⟨0, fun _ _ => rfl⟩

theorem Settles.lift {x : Except ε α} (h : x = .ok r) :
    Settles (fun _ => (OptionT.lift x : OptionT (Except ε) α).run) r :=
  ⟨0, fun _ _ => by rw [h]; rfl⟩

theorem Settles.bind {β : Type} {x : Nat → OptionT (Except ε) α} {f : Nat → α → OptionT (Except ε) β}
    {r' : β} (h : Settles (fun fuel => (x fuel).run) r) (h' : Settles (fun fuel => (f fuel r).run) r') :
    Settles (fun fuel => (x fuel >>= f fuel).run) r' := by
  obtain ⟨n, hn⟩ := h
  obtain ⟨m, hm⟩ := h'
  refine ⟨max n m, fun fuel hfuel => ?_⟩
  have hx : (x fuel).run = .ok (some r) := hn fuel (le_trans (le_max_left n m) hfuel)
  show (x fuel >>= f fuel).run = .ok (some r')
  rw [OptionT.run_bind, hx]
  exact hm fuel (le_trans (le_max_right n m) hfuel)

end Settling

section CString

variable {text : Bytes}

theorem cstring_ended (hzero : 0 ∉ text) (tail : Bytes) : cstring (text ++ 0 :: tail) = .ok text := by
  have hplain : ∀ c ∈ text, decide (c ≠ 0) = true := fun c hc => by
    simpa using ne_of_mem_of_not_mem hc hzero
  rw [cstring, if_pos (by simp), List.takeWhile_append_of_pos hplain]
  simp

end CString

section WordLoop

variable {σ : Type} {delims text tail : Bytes} {more : σ → Bool} {f : σ → Bytes → Option σ}
variable {st : σ} {t : Strtok}

-- A loop over the words of a text that leaves strtok alone; `none` where the body never returns.
def wordLoop (more : σ → Bool) (f : σ → Bytes → Option σ) : List Bytes → σ → Option σ
  | [], st => some st
  | word :: words, st => if more st then (f st word).bind (wordLoop more f words) else some st

theorem wordLoop_append (front behind : List Bytes) (st : σ) : wordLoop more f (front ++ behind) st =
    (wordLoop more f front st).bind (wordLoop more f behind) := by
  induction front generalizing st with
  | nil => rfl
  | cons word front ih =>
    rw [List.cons_append, wordLoop, wordLoop]
    by_cases hmore : more st = true
    · rw [if_pos hmore, if_pos hmore]
      cases f st word with
      | none => rfl
      | some st' => exact ih st'
    · rw [if_neg hmore, if_neg hmore]
      cases behind with
      | nil => rfl
      | cons word behind => exact (if_neg hmore).symm

theorem wordLoop_preserves {P : σ → Prop} {words : List Bytes} {st' : σ}
    (hstep : ∀ st word st', P st → f st word = some st' → P st') (hst : P st)
    (h : wordLoop more f words st = some st') : P st' := by
  induction words generalizing st with
  | nil => exact Option.some.inj h ▸ hst
  | cons word words ih =>
    rw [wordLoop] at h
    split at h
    · obtain ⟨next, hnext, hrest⟩ := Option.bind_eq_some_iff.mp h
      exact ih (hstep _ _ _ hst hnext) hrest
    · exact Option.some.inj h ▸ hst

theorem wordLoop_ne_none {words : List Bytes} (h : ∀ word ∈ words, ∀ st, f st word ≠ none) (st : σ) :
    wordLoop more f words st ≠ none := by
  induction words generalizing st with
  | nil => exact Option.some_ne_none st
  | cons word words ih =>
    rw [wordLoop]
    split
    · obtain ⟨st', hst'⟩ := Option.ne_none_iff_exists'.mp (h word List.mem_cons_self st)
      rw [hst']
      exact ih (fun w hw => h w (List.mem_cons_of_mem word hw)) st'
    · exact Option.some_ne_none st

def loopEnd (t : Strtok) (ended : Option σ) : Option (σ × Strtok) := ended.map (·, t)

theorem tokenLoop_ahead (hdelims : 0 ∉ delims) (htext : 0 ∉ text) (h : t.Ahead text tail) {fuel : Nat}
    (hfuel : (words delims text).length < fuel) :
    ∃ t', (strtok delims t >>= fun found => tokenLoop delims more
        (fun st word t => .ok ((f st word).map (·, t))) fuel found.1 st found.2) =
      .ok (loopEnd t' (wordLoop more f (words delims text) st)) := by
  induction fuel generalizing text t st with
  | zero => omega
  | succ fuel ih =>
    rcases strtok_ahead hdelims htext h with ⟨hwords, _, t', hcall, _⟩ | ⟨w, hwords, _, hcall⟩ |
      ⟨w, rest, t', hwords, _, _, hrest, hcall, hahead⟩
    · exact ⟨t', by rw [hcall, hwords]; rfl⟩
    · rw [hwords] at hfuel ⊢
      obtain ⟨fuel, rfl⟩ : ∃ k, fuel = k + 1 := ⟨fuel - 1, by simp at hfuel; omega⟩
      rw [hcall]
      simp only [bind, Except.bind, tokenLoop, wordLoop]
      by_cases hmore : more st = true
      · cases hf : f st w with
        | none => exact ⟨t, by simp [hmore, loopEnd]⟩
        | some st' => exact ⟨{ t with next := .usedUp }, by simp [hmore, loopEnd, strtok, tokenLoop]⟩
      · exact ⟨{ t with next := .usedUp }, by simp [hmore, loopEnd]⟩
    · rw [hwords] at hfuel ⊢
      rw [hcall]
      simp only [bind, Except.bind, tokenLoop, wordLoop]
      by_cases hmore : more st = true
      · cases hf : f st w with
        | none => exact ⟨t', by simp [hmore, loopEnd]⟩
        | some st' =>
          obtain ⟨u, hrun⟩ := @ih rest st' t' hrest hahead (by simpa using hfuel)
          simp only [bind, Except.bind] at hrun
          exact ⟨u, by simpa [hmore] using hrun⟩
      · exact ⟨t', by simp [hmore, loopEnd]⟩

theorem forTokens_words (hdelims : 0 ∉ delims) (htext : 0 ∉ text) {fuel : Nat}
    (hfuel : (words delims text).length < fuel) (more : σ → Bool) (f : σ → Bytes → Option σ)
    (st : σ) (tail : Bytes) :
    ∃ t, forTokens delims more (fun st word t => .ok ((f st word).map (·, t))) fuel st
        (text ++ 0 :: tail) = .ok (loopEnd t (wordLoop more f (words delims text) st)) :=
  tokenLoop_ahead hdelims htext (ahead_start text tail) hfuel

end WordLoop

section Unended

variable {σ : Type} {delims text : Bytes} {more : σ → Bool} {st : σ} {t : Strtok}
variable {body : σ → Bytes → Strtok → Outcome (Option (σ × Strtok))}

def Strtok.Unended (t : Strtok) : Prop := ∃ i, t.next = .position i ∧ 0 ∉ t.text.drop i

theorem unended_start (h : 0 ∉ text) : (strtokStart text).Unended := ⟨0, rfl, h⟩

theorem strtok_of_unended (h : t.Unended) : strtok delims t = .error .bufferOverflow ∨
    ∃ word t', strtok delims t = .ok (some word, t') ∧ t'.Unended := by
  obtain ⟨i, hnext, hzero⟩ := h
  simp only [strtok, hnext]
  generalize hstart : i + ((t.text.drop i).takeWhile (· ∈ delims)).length = start
  generalize (t.text.drop start).takeWhile (fun c => c ∉ delims ∧ c ≠ 0) = word
  have hlater : ∀ k, i ≤ k → t.text[k]? ≠ some 0 := by
    intro k hk hget
    refine hzero (List.mem_iff_getElem?.mpr ⟨k - i, ?_⟩)
    rw [List.getElem?_drop, ← hget]
    congr 1
    omega
  split
  · exact .inl rfl
  · next hget => exact absurd hget (hlater start (by omega))
  · exact .inl rfl
  · next hget => exact absurd hget (hlater _ (by omega))
  · refine .inr ⟨word, _, rfl, _, rfl, fun hin => ?_⟩
    rw [List.drop_set_of_lt (Nat.lt_succ_self _)] at hin
    obtain ⟨k, hk⟩ := List.mem_iff_getElem?.mp hin
    rw [List.getElem?_drop] at hk
    exact hlater _ (by omega) hk

theorem forTokens_unended (h : 0 ∉ text) (hmore : ∀ st, more st = true)
    (hbody : ∀ st word t st' t', body st word t = .ok (some (st', t')) → t' = t) (fuel : Nat) (st : σ)
    (ended : σ × Strtok) : forTokens delims more body fuel st text ≠ .ok (some ended) := by
  have hloop : ∀ fuel t st, t.Unended → (strtok delims t >>= fun found =>
      tokenLoop delims more body fuel found.1 st found.2) ≠ .ok (some ended) := by
    intro fuel
    induction fuel with
    | zero =>
      intro t st ht hrun
      obtain ⟨_, _, hrest⟩ := Outcome.bind_eq_ok.mp hrun
      cases hrest
    | succ fuel ih =>
      intro t st ht hrun
      rcases strtok_of_unended ht with herror | ⟨word, t', hcall, ht'⟩
      · rw [herror] at hrun
        cases hrun
      · rw [hcall] at hrun
        simp only [bind, Except.bind, tokenLoop, hmore, if_true] at hrun
        cases hword : body st word t' with
        | error e => simp [hword] at hrun
        | ok next =>
          cases next with
          | none => simp [hword] at hrun
          | some next =>
            obtain ⟨st', u⟩ := next
            obtain rfl := hbody _ _ _ _ _ hword
            simp only [hword] at hrun
            exact ih u st' ht' hrun
  exact hloop fuel _ st (unended_start h)

end Unended

end ZoraVM.Foundation
