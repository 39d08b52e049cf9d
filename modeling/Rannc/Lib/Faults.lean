import Rannc.Lib.OptionFold

/-!
# Programs that say why they fail

`Meets` bounds the reasons for which a program may fail and says what its result is. A program that
gives its reasons agrees with one that does not, if it has the same result whenever it has one.
-/
namespace Rannc

variable {ε α β : Type}

/-- The program has a result in `Q`, or fails for a reason in `E`. -/
def Meets (E : ε → Prop) (prog : Except ε α) (Q : α → Prop) : Prop :=
  match prog with
  | .ok a => Q a
  | .error e => E e

/-- Give a reason. -/
def orThrow (e : ε) : Option α → Except ε α
  | some a => .ok a
  | none => .error e

/-- A loop with a `break`: every turn says whether it is the last. -/
def foldUntil (f : β → α → Except ε (β × Bool)) : β → List α → Except ε β
  | b, [] => .ok b
  | b, a :: l => do
    let (b, stop) ← f b a
    if stop then return b else foldUntil f b l

variable {E : ε → Prop}

theorem Meets.weaken {prog : Except ε α} {Q Q' : α → Prop} (h : Meets E prog Q)
    (hQ : ∀ a, Q a → Q' a) : Meets E prog Q' := by
  cases prog with
  | ok a => exact hQ a h
  | error e => exact h

theorem Meets.result {prog : Except ε α} {Q : α → Prop} (h : Meets E prog Q) :
    Meets (fun _ => True) prog Q := by
  cases prog with
  | ok a => exact h
  | error e => trivial

theorem meets_true (prog : Except ε α) : Meets (fun _ => True) prog fun _ => True := by
  cases prog <;> trivial

theorem Meets.pure {Q : α → Prop} {a : α} (h : Q a) : Meets E (pure a) Q :=
  h

theorem Meets.bind {prog : Except ε α} {next : α → Except ε β} {Q : α → Prop} {R : β → Prop}
    (hprog : Meets E prog Q) (hnext : ∀ a, Q a → Meets E (next a) R) :
    Meets E (prog >>= next) R := by
  cases prog with
  | ok a => exact hnext a hprog
  | error e => exact hprog

theorem Meets.orThrow {e : ε} (he : E e) (o : Option α) :
    Meets E (orThrow e o) (o = some ·) := by
  cases o with
  | none => exact he
  | some a => exact rfl

theorem Meets.mapM {f : α → Except ε β} {l : List α}
    (h : ∀ a ∈ l, Meets E (f a) fun _ => True) : Meets E (l.mapM f) fun _ => True := by
  induction l with
  | nil => exact trivial
  | cons a l ih =>
    rw [List.mapM_cons]
    apply (h a List.mem_cons_self).bind
    intro b _
    apply (ih fun a ha => h a (List.mem_cons_of_mem _ ha)).bind
    intro l' _
    exact trivial

theorem Meets.mapM_forall₂ {f : α → Except ε β} {Q : α → β → Prop} {l : List α}
    (h : ∀ a ∈ l, Meets E (f a) (Q a)) : Meets E (l.mapM f) (List.Forall₂ Q l) := by
  induction l with
  | nil => exact List.Forall₂.nil
  | cons a l ih =>
    rw [List.mapM_cons]
    apply (h a List.mem_cons_self).bind
    intro b hb
    apply (ih fun a ha => h a (List.mem_cons_of_mem _ ha)).bind
    intro l' hl'
    exact List.Forall₂.cons hb hl'

theorem Meets.foldlM {f : β → α → Except ε β} {I : β → Prop} {l : List α}
    (hturn : ∀ b, ∀ a ∈ l, I b → Meets E (f b a) I) {b : β} (hb : I b) :
    Meets E (l.foldlM f b) I := by
  induction l generalizing b with
  | nil => exact hb
  | cons a l ih =>
    rw [List.foldlM_cons]
    apply (hturn b a List.mem_cons_self hb).bind
    intro b' hb'
    exact ih (fun b a ha => hturn b a (List.mem_cons_of_mem _ ha)) hb'

/-- An invariant that speaks of the part of the list that has been worked off. -/
theorem Meets.foldlM_prefix {f : β → α → Except ε β} {I : List α → β → Prop} {l : List α}
    (hturn : ∀ before a after b, l = before ++ a :: after → I before b →
      Meets E (f b a) (I (before ++ [a]))) {b : β} (hb : I [] b) :
    Meets E (l.foldlM f b) (I l) := by
  have hrun : ∀ (rest before : List α) (b : β), l = before ++ rest → I before b →
      Meets E (rest.foldlM f b) (I l) := by
    intro rest
    induction rest with
    | nil =>
      intro before b hl hb
      rw [hl, List.append_nil]
      exact hb
    | cons a rest ih =>
      intro before b hl hb
      rw [List.foldlM_cons]
      apply (hturn before a rest b hl hb).bind
      intro b' hb'
      exact ih (before ++ [a]) b' (by rw [hl, List.append_assoc, List.singleton_append]) hb'
  exact hrun l [] b rfl hb

theorem Meets.foldUntil {f : β → α → Except ε (β × Bool)} {I : β → Prop} {l : List α}
    (hturn : ∀ b, ∀ a ∈ l, I b → Meets E (f b a) fun turn => I turn.1) {b : β} (hb : I b) :
    Meets E (foldUntil f b l) I := by
  induction l generalizing b with
  | nil => exact hb
  | cons a l ih =>
    apply (hturn b a List.mem_cons_self hb).bind
    intro turn hturn'
    obtain ⟨b', stop⟩ := turn
    cases stop with
    | true => exact hturn'
    | false => exact ih (fun b a ha => hturn b a (List.mem_cons_of_mem _ ha)) hturn'

/-- The program fails for a reason in `E`, or has the result of one that gives no reasons. -/
def Agrees (E : ε → Prop) (prog : Except ε α) (o : Option α) : Prop :=
  Meets E prog (o = some ·)

theorem Agrees.pure (a : α) : Agrees E (pure a) (some a) :=
  Meets.pure rfl

theorem Agrees.orThrow {e : ε} (he : E e) (o : Option α) : Agrees E (orThrow e o) o :=
  Meets.orThrow he o

theorem Agrees.bind {prog : Except ε α} {next : α → Except ε β} {o : Option α}
    {onext : α → Option β} (hprog : Agrees E prog o) (hnext : ∀ a, Agrees E (next a) (onext a)) :
    Agrees E (prog >>= next) (o.bind onext) := by
  apply Meets.bind hprog
  intro a ha
  rw [ha]
  exact hnext a

theorem Agrees.bind_map {γ : Type} {prog : Except ε β} {next : β → Except ε γ} {o : Option α}
    {f : α → β} {onext : α → Option γ} (hprog : Agrees E prog (o.map f))
    (hnext : ∀ a, Agrees E (next (f a)) (onext a)) : Agrees E (prog >>= next) (o.bind onext) := by
  apply Meets.bind hprog
  intro b hb
  obtain ⟨a, ha, rfl⟩ := Option.map_eq_some_iff.mp hb
  rw [ha]
  exact hnext a

theorem Agrees.check {prog : Except ε α} {next : α → Except ε β} {o : Option β} {Q : α → Prop}
    (hprog : Meets E prog Q) (hnext : ∀ a, Q a → Agrees E (next a) o) :
    Agrees E (prog >>= next) o :=
  hprog.bind hnext

theorem Agrees.mapM {f : α → Except ε β} {g : α → Option β} {l : List α}
    (h : ∀ a ∈ l, Agrees E (f a) (g a)) : Agrees E (l.mapM f) (l.mapM g) := by
  induction l with
  | nil => exact Agrees.pure []
  | cons a l ih =>
    rw [List.mapM_cons, List.mapM_cons]
    apply (h a List.mem_cons_self).bind
    intro b
    apply (ih fun a ha => h a (List.mem_cons_of_mem _ ha)).bind
    intro l'
    exact Agrees.pure _

theorem Agrees.foldlM {f : β → α → Except ε β} {g : β → α → Option β} {l : List α}
    (h : ∀ b, ∀ a ∈ l, Agrees E (f b a) (g b a)) (b : β) :
    Agrees E (l.foldlM f b) (l.foldlM g b) := by
  induction l generalizing b with
  | nil => exact Agrees.pure b
  | cons a l ih =>
    rw [List.foldlM_cons, List.foldlM_cons]
    apply (h b a List.mem_cons_self).bind
    exact ih fun b a ha => h b a (List.mem_cons_of_mem _ ha)

theorem Agrees.foldUntil {f : β → α → Except ε (β × Bool)} {g : β → α → Option (β × Bool)}
    {l : List α} (h : ∀ b, ∀ a ∈ l, Agrees E (f b a) (g b a)) (b : β) :
    Agrees E (foldUntil f b l) (foldUntilM g b l) := by
  induction l generalizing b with
  | nil => exact Agrees.pure b
  | cons a l ih =>
    apply (h b a List.mem_cons_self).bind
    intro turn
    obtain ⟨b', stop⟩ := turn
    cases stop with
    | true => exact Agrees.pure b'
    | false => exact ih (fun b a ha => h b a (List.mem_cons_of_mem _ ha)) b'

theorem forM_eq_ok_iff {f : α → Except ε PUnit} {l : List α} :
    l.forM f = .ok () ↔ ∀ a ∈ l, f a = .ok () := by
  induction l with
  | nil => simp [pure, Except.pure]
  | cons a l ih =>
    rw [List.forall_mem_cons, ← ih]
    change (f a >>= fun _ => l.forM f) = .ok () ↔ _
    cases f a with
    | ok u => simp [bind, Except.bind]
    | error e => simp [bind, Except.bind]

theorem check_bind_eq_ok_iff {prog : Except ε PUnit} {next : PUnit → Except ε PUnit} :
    (prog >>= next) = .ok () ↔ prog = .ok () ∧ next () = .ok () := by
  cases prog with
  | ok u => simp [bind, Except.bind]
  | error e => simp [bind, Except.bind]

end Rannc
