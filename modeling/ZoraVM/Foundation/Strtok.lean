import ZoraVM.Foundation.CString
import ZoraVM.Foundation.Heap
import Mathlib.Data.List.TakeWhile

namespace ZoraVM.Foundation

-- The C string a block begins with: nothing but the block bounds the search for its end.
def cstring (text : Bytes) : Outcome Bytes :=
  if 0 ∈ text then .ok (text.takeWhile (· ≠ 0)) else .error .bufferOverflow

section Text

variable {text rest : Bytes}

theorem text_eq_self_iff : text.takeWhile (· ≠ 0) = text ↔ 0 ∉ text := by
  rw [List.takeWhile_eq_self_iff]
  constructor
  · intro h hzero
    simpa using h 0 hzero
  · intro h c hc
    simpa using ne_of_mem_of_not_mem hc h

theorem text_append_zero (text rest : Bytes) :
    (text ++ 0 :: rest).takeWhile (· ≠ 0) = text.takeWhile (· ≠ 0) := by
  induction text with
  | nil => rfl
  | cons c text ih =>
    by_cases hc : c = 0
    · simp [hc]
    · simpa [hc] using ih

end Text

-- strstr: whether `needle` occurs in `text`.
def occurs (needle text : Bytes) : Bool := text.tails.any needle.isPrefixOf

theorem occurs_iff {needle text : Bytes} : occurs needle text = true ↔ needle <:+: text := by
  rw [occurs, List.any_eq_true]
  constructor
  · rintro ⟨tail, htail, hprefix⟩
    exact (List.isPrefixOf_iff_prefix.mp hprefix).isInfix.trans ((List.mem_tails _ _).mp htail).isInfix
  · rintro ⟨front, rest, rfl⟩
    refine ⟨needle ++ rest, (List.mem_tails _ _).mpr ⟨front, by rw [List.append_assoc]⟩, ?_⟩
    exact List.isPrefixOf_iff_prefix.mpr (List.prefix_append needle rest)

inductive StrtokNext where
  | position (i : Nat)
  | usedUp
  | freed
  deriving DecidableEq, Repr

structure Strtok where
  text : Bytes
  next : StrtokNext
  deriving DecidableEq, Repr

def strtokStart (text : Bytes) : Strtok := ⟨text, .position 0⟩

def strtok (delims : Bytes) (t : Strtok) : Outcome (Option Bytes × Strtok) :=
  match t.next with
  | .usedUp => .ok (none, t)
  | .freed => .error .freedBlock
  | .position i =>
    let start := i + ((t.text.drop i).takeWhile (· ∈ delims)).length
    let token := (t.text.drop start).takeWhile fun c => c ∉ delims ∧ c ≠ 0
    match t.text[start]?, t.text[start + token.length]? with
    | none, _ => .error .bufferOverflow
    | some 0, _ => .ok (none, { t with next := .position start })
    | some _, none => .error .bufferOverflow
    | some _, some 0 => .ok (some token, { t with next := .usedUp })
    | some _, some _ =>
      .ok (some token,
        ⟨t.text.set (start + token.length) 0, .position (start + token.length + 1)⟩)

section Loop

variable {σ : Type}

-- while (line != NULL && more) { body; line = strtok(NULL, delims); }
-- `none` where the fuel runs out first.
def tokenLoop (delims : Bytes) (more : σ → Bool)
    (body : σ → Bytes → Strtok → Outcome (Option (σ × Strtok))) :
    Nat → Option Bytes → σ → Strtok → Outcome (Option (σ × Strtok))
  | 0, _, _, _ => .ok none
  | _ + 1, none, st, t => .ok (some (st, t))
  | fuel + 1, some token, st, t =>
    if more st then do
      match ← body st token t with
      | none => .ok none
      | some (st, t) =>
        let (token, t) ← strtok delims t
        tokenLoop delims more body fuel token st t
    else .ok (some (st, t))

def forTokens (delims : Bytes) (more : σ → Bool)
    (body : σ → Bytes → Strtok → Outcome (Option (σ × Strtok))) (fuel : Nat) (st : σ)
    (text : Bytes) : Outcome (Option (σ × Strtok)) := do
  let (token, t) ← strtok delims (strtokStart text)
  tokenLoop delims more body fuel token st t

end Loop

theorem length_takeWhile_le {p : UInt8 → Bool} {text : Bytes} {k : Nat} {c : UInt8}
    (hc : text[k]? = some c) (hp : p c = false) : (text.takeWhile p).length ≤ k := by
  induction text generalizing k with
  | nil => simp
  | cons d text ih =>
    cases k with
    | zero =>
      obtain rfl := Option.some.inj hc
      simp [hp]
    | succ k =>
      cases hd : p d with
      | false => simp [hd]
      | true =>
        have hrest := ih (k := k) (by simpa using hc)
        simp only [List.takeWhile_cons, hd, if_true, List.length_cons]
        omega

def Strtok.Terminated (t : Strtok) : Prop :=
  match t.next with
  | .usedUp => True
  | .freed => False
  | .position i => ∃ j, i ≤ j ∧ t.text[j]? = some 0

def Strtok.room (t : Strtok) : Nat :=
  match t.next with
  | .position i => t.text.length - i
  | _ => 0

theorem terminated_start {text : Bytes} (hzero : 0 ∈ text) : (strtokStart text).Terminated := by
  obtain ⟨j, hj⟩ := List.mem_iff_getElem?.mp hzero
  exact ⟨j, Nat.zero_le j, hj⟩

theorem strtok_terminated {delims : Bytes} {t : Strtok} (ht : t.Terminated)
    (hdelims : 0 ∉ delims) : ∃ token t', strtok delims t = .ok (token, t') ∧ t'.Terminated ∧
      (token.isSome = true → t'.room < t.room) := by
  obtain ⟨text, next⟩ := t
  cases next with
  | usedUp => exact ⟨none, _, rfl, trivial, by simp⟩
  | freed => exact ht.elim
  | position i =>
    obtain ⟨j, hij, hj⟩ := ht
    have hlt : j < text.length := (List.getElem?_eq_some_iff.mp hj).1
    have hskip : ((text.drop i).takeWhile (· ∈ delims)).length ≤ j - i :=
      length_takeWhile_le (c := 0) (by rw [List.getElem?_drop, ← hj]; congr 1; omega) (by simpa)
    simp only [strtok]
    generalize hskipped : i + ((text.drop i).takeWhile (· ∈ delims)).length = start
    have hstart : start ≤ j := by omega
    have hword : ((text.drop start).takeWhile fun c => c ∉ delims ∧ c ≠ 0).length ≤ j - start :=
      length_takeWhile_le (c := 0) (by rw [List.getElem?_drop, ← hj]; congr 1; omega) (by simp)
    generalize (text.drop start).takeWhile (fun c => c ∉ delims ∧ c ≠ 0) = token at hword ⊢
    split
    · next hnone =>
      have hge := List.getElem?_eq_none_iff.mp hnone
      omega
    · exact ⟨none, _, rfl, ⟨j, hstart, hj⟩, by simp⟩
    · next hnone =>
      have hge := List.getElem?_eq_none_iff.mp hnone
      omega
    · exact ⟨some token, _, rfl, trivial, fun _ => by simp only [Strtok.room]; omega⟩
    · next hnonzero _ hstop =>
      have hne : start + token.length ≠ j := by
        intro heq
        rw [heq, hj] at hstop
        exact hnonzero (Option.some.inj hstop).symm
      refine ⟨some token, _, rfl, ⟨j, by omega, ?_⟩, fun _ => ?_⟩
      · rw [List.getElem?_set_ne hne, hj]
      · simp only [Strtok.room, List.length_set]
        omega

section Simulation

variable {σ τ : Type} {delims : Bytes} {more : σ → Bool} {more' : τ → Bool}
variable {body : σ → Bytes → Strtok → Outcome (Option (σ × Strtok))}
variable {body' : τ → Bytes → Strtok → Outcome (Option (τ × Strtok))}

theorem tokenLoop_map (g : σ → τ) (hmore : ∀ st, more' (g st) = more st)
    (hbody : ∀ st token t, body' (g st) token t = Option.map (Prod.map g id) <$> body st token t)
    (fuel : Nat) (token : Option Bytes) (st : σ) (t : Strtok) :
    tokenLoop delims more' body' fuel token (g st) t =
      Option.map (Prod.map g id) <$> tokenLoop delims more body fuel token st t := by
  induction fuel generalizing token st t with
  | zero => rfl
  | succ fuel ih =>
    cases token with
    | none => rfl
    | some word =>
      rw [tokenLoop, tokenLoop, hmore, hbody]
      split
      · cases body st word t with
        | error e => rfl
        | ok next =>
          cases next with
          | none => rfl
          | some next =>
            simp only [Functor.map, Except.map, Option.map, Prod.map, id, bind, Except.bind]
            cases strtok delims next.2 with
            | error e => rfl
            | ok found => exact ih found.1 next.1 found.2
      · rfl

theorem forTokens_map (g : σ → τ) (hmore : ∀ st, more' (g st) = more st)
    (hbody : ∀ st token t, body' (g st) token t = Option.map (Prod.map g id) <$> body st token t)
    (fuel : Nat) (st : σ) (text : Bytes) :
    forTokens delims more' body' fuel (g st) text =
      Option.map (Prod.map g id) <$> forTokens delims more body fuel st text := by
  simp only [forTokens, bind, Except.bind]
  cases strtok delims (strtokStart text) with
  | error e => rfl
  | ok found => exact tokenLoop_map g hmore hbody fuel found.1 st found.2

end Simulation

section Invariant

variable {σ : Type} {delims : Bytes} {more : σ → Bool}
variable {body : σ → Bytes → Strtok → Outcome (Option (σ × Strtok))}

theorem tokenLoop_preserves {P : σ → Prop}
    (hbody : ∀ st token t st' t', P st → body st token t = .ok (some (st', t')) → P st')
    {fuel : Nat} {token : Option Bytes} {st st' : σ} {t t' : Strtok} (hst : P st)
    (h : tokenLoop delims more body fuel token st t = .ok (some (st', t'))) : P st' := by
  induction fuel generalizing token st t with
  | zero => cases h
  | succ fuel ih =>
    cases token with
    | none =>
      obtain ⟨rfl, _⟩ := Prod.mk.inj (Option.some.inj (Except.ok.inj h))
      exact hst
    | some word =>
      rw [tokenLoop] at h
      split at h
      · obtain ⟨ended, hword, hrest⟩ := Outcome.bind_eq_ok.mp h
        cases ended with
        | none => cases hrest
        | some next =>
          obtain ⟨_, _, hloop⟩ := Outcome.bind_eq_ok.mp hrest
          exact ih (hbody _ _ _ _ _ hst hword) hloop
      · obtain ⟨rfl, _⟩ := Prod.mk.inj (Option.some.inj (Except.ok.inj h))
        exact hst

end Invariant

section Returns

variable {σ : Type} {delims : Bytes} {more : σ → Bool}
variable {body : σ → Bytes → Strtok → Outcome (Option (σ × Strtok))}

theorem tokenLoop_returns (hdelims : 0 ∉ delims)
    (hbody : ∀ st token t, ∃ st', body st token t = .ok (some (st', t))) {fuel : Nat}
    {token : Option Bytes} {st : σ} {t : Strtok} (ht : t.Terminated)
    (hfuel : t.room + 1 < fuel) :
    ∃ st' t', tokenLoop delims more body fuel token st t = .ok (some (st', t')) := by
  induction fuel generalizing token st t with
  | zero => omega
  | succ fuel ih =>
    cases token with
    | none => exact ⟨st, t, rfl⟩
    | some word =>
      rw [tokenLoop]
      split
      · obtain ⟨st', hst'⟩ := hbody st word t
        obtain ⟨next, t', hnext, ht', hroom⟩ := strtok_terminated ht hdelims
        simp only [hst', hnext, bind, Except.bind]
        cases next with
        | none =>
          cases fuel with
          | zero => omega
          | succ fuel => exact ⟨st', t', rfl⟩
        | some word' =>
          have hless : t'.room < t.room := hroom rfl
          exact ih ht' (by omega)
      · exact ⟨st, t, rfl⟩

theorem forTokens_returns (hdelims : 0 ∉ delims)
    (hbody : ∀ st token t, ∃ st', body st token t = .ok (some (st', t))) {fuel : Nat} (st : σ)
    {text : Bytes} (hzero : 0 ∈ text) (hfuel : text.length + 1 < fuel) :
    ∃ st' t', forTokens delims more body fuel st text = .ok (some (st', t')) := by
  obtain ⟨token, t, hfirst, ht, hroom⟩ := strtok_terminated (terminated_start hzero) hdelims
  simp only [forTokens, hfirst, bind, Except.bind]
  cases token with
  | none =>
    cases fuel with
    | zero => omega
    | succ fuel => exact ⟨st, t, rfl⟩
  | some word =>
    have hless : t.room < text.length := hroom rfl
    exact tokenLoop_returns hdelims hbody ht (by omega)

end Returns

end ZoraVM.Foundation
