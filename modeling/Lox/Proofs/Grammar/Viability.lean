import Lox.Proofs.Grammar.Tolerance

/-! # What can still become a program

As long as no error is raised, the tokens read so far are the beginning of what the looser grammar
derives. The first error is raised at the next token, and the tokens after it have no part in that.
-/

namespace Lox

open Grammar Phrase

def Grammar.Phrase.Productive (φ : Phrase) : Prop := ∃ ts, Derives looseRules φ ts

namespace Grammar.Phrase.Productive

variable {φ ψ : Phrase}

protected theorem kind (k : Kind) : (kind k).Productive := ⟨[⟨k, "", .nil, 1⟩], .token rfl⟩

protected theorem opt : (opt φ).Productive := ⟨[], .none⟩

protected theorem many : (many φ).Productive := ⟨[], .nil⟩

protected theorem symbol {s : Symbol} (h : (looseRules s).Productive) : (symbol s).Productive :=
  h.imp fun _ => .symbol

protected theorem seq (h : φ.Productive) (h' : ψ.Productive) : (φ ++ ψ).Productive := by
  obtain ⟨us, hu⟩ := h
  obtain ⟨vs, hv⟩ := h'
  exact ⟨us ++ vs, .seq hu hv⟩

protected theorem left (h : φ.Productive) : (φ ||| ψ).Productive := h.imp fun _ => .left

protected theorem right (h : ψ.Productive) : (φ ||| ψ).Productive := h.imp fun _ => .right

protected theorem parenthesised (h : φ.Productive) : (parenthesised φ).Productive :=
  ((Productive.kind _).seq h).seq (.kind _)

end Grammar.Phrase.Productive

theorem Grammar.Symbol.productive (s : Symbol) : (symbol s).Productive := by
  have hunary : (symbol .unary).Productive := .symbol (.right (.symbol (.left (.right (.kind _)))))
  have hfactor : (symbol .factor).Productive := .symbol (hunary.seq .many)
  have hterm : (symbol .term).Productive := .symbol (hfactor.seq .many)
  have hcomparison : (symbol .comparison).Productive := .symbol (hterm.seq .many)
  have hequality : (symbol .equality).Productive := .symbol (hcomparison.seq .many)
  have hand : (symbol .and).Productive := .symbol (hequality.seq .many)
  have hor : (symbol .or).Productive := .symbol (hand.seq .many)
  have hternary : (symbol .ternary).Productive := .symbol (hor.seq .opt)
  have hassignment : (symbol .assignment).Productive := .symbol (hternary.seq .opt)
  have hexpression : (symbol .expression).Productive := .symbol hassignment
  have hvalue : (symbol .expressionStatement).Productive := .symbol (hexpression.seq (.kind _))
  have hstatement : (symbol .statement).Productive := .symbol (.right hvalue)
  cases s with
  | program => exact .symbol .many
  | declaration => exact .symbol (.right hstatement)
  | «variable» => exact .symbol ((((Productive.kind _).seq (.kind _)).seq .opt).seq (.kind _))
  | statement => exact hstatement
  | forLoop =>
    refine .symbol (((Productive.kind _).seq (.parenthesised ?_)).seq hstatement)
    exact ((Productive.right (.kind _)).seq .opt).seq (.kind _) |>.seq .opt
  | branch =>
    exact .symbol ((((Productive.kind _).seq hexpression.parenthesised).seq hstatement).seq .opt)
  | print => exact .symbol (((Productive.kind _).seq hexpression).seq (.kind _))
  | loop => exact .symbol (((Productive.kind _).seq hexpression.parenthesised).seq hstatement)
  | block => exact .symbol (((Productive.kind _).seq .many).seq (.kind _))
  | expressionStatement => exact hvalue
  | expression => exact hexpression
  | assignment => exact hassignment
  | ternary => exact hternary
  | or => exact hor
  | and => exact hand
  | equality => exact hequality
  | comparison => exact hcomparison
  | term => exact hterm
  | factor => exact hfactor
  | unary => exact hunary
  | primary => exact .symbol (.left (.right (.kind _)))

theorem Grammar.Phrase.productive (φ : Phrase) : φ.Productive := by
  induction φ with
  | kind k => exact .kind k
  | symbol s => exact s.productive
  | seq _ _ h h' => exact h.seq h'
  | alt _ _ h _ => exact h.left
  | opt => exact .opt
  | many => exact .many

/-- The phrases derive the tokens one after another. -/
inductive Sequence : List Phrase → List Token → Prop
  | nil : Sequence [] []
  | cons {φ : Phrase} {φs : List Phrase} {us vs : List Token} : Derives looseRules φ us →
      Sequence φs vs → Sequence (φ :: φs) (us ++ vs)

namespace Sequence

variable {φ ψ : Phrase} {φs ψs : List Phrase} {t : Token} {ts us vs : List Token}

theorem append (h : Sequence φs us) (h' : Sequence ψs vs) : Sequence (φs ++ ψs) (us ++ vs) := by
  induction h with
  | nil => exact h'
  | cons hu _ ih =>
    rw [List.append_assoc]
    exact .cons hu ih

theorem cons_singleton (h : Derives looseRules φ [t]) (h' : Sequence φs ts) :
    Sequence (φ :: φs) (t :: ts) :=
  Sequence.cons h h'

theorem cons_nil (h : Derives looseRules φ []) (h' : Sequence φs ts) : Sequence (φ :: φs) ts :=
  Sequence.cons h h'

theorem token {k : Kind} (h : t.kind = k) (h' : Sequence φs ts) :
    Sequence (kind k :: φs) (t :: ts) :=
  .cons_singleton (.token h) h'

theorem single (h : Derives looseRules φ ts) : Sequence [φ] ts := by
  rw [← List.append_nil ts]
  exact .cons h .nil

theorem of_single (h : Sequence [φ] ts) : Derives looseRules φ ts := by
  cases h with
  | cons h h' =>
    cases h'
    rwa [List.append_nil]

theorem fuse (h : Sequence (φ :: ψ :: φs) ts) : Sequence ((φ ++ ψ) :: φs) ts := by
  cases h with
  | cons hu h =>
    cases h with
    | cons hv h =>
      rw [← List.append_assoc]
      exact .cons (.seq hu hv) h

theorem head (hφ : ∀ us, Derives looseRules φ us → Derives looseRules ψ us)
    (h : Sequence (φ :: φs) ts) : Sequence (ψ :: φs) ts := by
  cases h with
  | cons hu h => exact .cons (hφ _ hu) h

theorem tail (hφ : ∀ us, Sequence φs us → Sequence ψs us) (h : Sequence (φ :: φs) ts) :
    Sequence (φ :: ψs) ts := by
  cases h with
  | cons hu h => exact .cons hu (hφ _ h)

theorem exists_of (φs : List Phrase) : ∃ ts, Sequence φs ts := by
  induction φs with
  | nil => exact ⟨[], .nil⟩
  | cons φ φs ih =>
    obtain ⟨us, hu⟩ := φ.productive
    obtain ⟨vs, hv⟩ := ih
    exact ⟨us ++ vs, .cons hu hv⟩

end Sequence

namespace Parser

variable {α β : Type} {φ : Phrase} {φs ψs χs : List Phrase} {ts us : List Token}

/-- The fault is at a token after what the phrases derive the beginning of. Where the tokens up to
it come first, `q` finds it, and finds the same before it. -/
def Located (q : Parser α) (φs : List Phrase) (ts : List Token) (before : List Fault) (f : Fault) :
    Prop :=
  ∃ pre post, ts = pre ++ f.token :: post ∧ (∃ more, Sequence φs (pre ++ more)) ∧
    ∀ post', ∃ after, (q (pre ++ f.token :: post')).faults = before ++ f :: after

/-- What `p` takes is derived by the phrases unless an error is raised. The first error raised is
at the token where the beginning of something derived ends. -/
structure Tracks (p q : Parser α) (φs : List Phrase) (ts : List Token) : Prop where
  taken {a : α} {rest : List Token} {faults : List Fault} : p ts = ⟨.ok a, rest, faults⟩ →
    Mild faults → ∃ used, ts = used ++ rest ∧ Sequence φs used
  raised {e : SyntaxError} {rest : List Token} {faults : List Fault} :
    p ts = ⟨.error (.raised e), rest, faults⟩ → ¬ Mild faults
  located {before after : List Fault} {f : Fault} : (p ts).faults = before ++ f :: after →
    Mild before → f.error ≠ .invalidTarget → Located q φs ts before f

theorem faults_bind (p : Parser α) (f : α → Parser β) (ts : List Token) :
    ∃ more, ((p >>= f) ts).faults = (p ts).faults ++ more := by
  rcases hp : p ts with ⟨s | a, mid, fs⟩
  · exact ⟨[], by rw [bind_error hp, List.append_nil]⟩
  · exact ⟨_, by rw [bind_ok hp]⟩

/-- The first error raised is among those of the first part unless they are all mild. -/
theorem first_of_append {fs fs' before after : List Fault} {f : Fault}
    (h : fs ++ fs' = before ++ f :: after) (hb : Mild before) :
    (∃ after', fs = before ++ f :: after') ∨
      ∃ before', Mild fs ∧ before = fs ++ before' ∧ fs' = before' ++ f :: after := by
  rcases List.append_eq_append_iff.mp h with ⟨us, rfl, rfl⟩ | ⟨us, rfl, h'⟩
  · exact .inr ⟨us, (mild_append.mp hb).1, rfl, rfl⟩
  · cases us with
    | nil => exact .inr ⟨[], by simpa using hb, by simp, h'.symm⟩
    | cons g us =>
      obtain ⟨rfl, rfl⟩ := List.cons.inj h'
      exact .inl ⟨us, rfl⟩

theorem head_of_append {t u : Token} {pre post : List Token} (h : t :: ts = pre ++ u :: post)
    (post' : List Token) : ∃ vs, pre ++ u :: post' = t :: vs := by
  cases pre with
  | nil => exact ⟨post', by rw [(List.cons.inj h).1]; rfl⟩
  | cons v pre => exact ⟨_, by rw [(List.cons.inj h).1]; rfl⟩

namespace Tracks

theorem weaken {p q : Parser α} (h : Tracks p q φs ts)
    (hw : ∀ us, Sequence φs us → Sequence ψs us) : Tracks p q ψs ts := by
  refine ⟨fun hp hm => ?_, h.raised, fun hp hb hf => ?_⟩
  · obtain ⟨used, hts, hu⟩ := h.taken hp hm
    exact ⟨used, hts, hw _ hu⟩
  · obtain ⟨pre, post, hts, ⟨more, hm⟩, hq⟩ := h.located hp hb hf
    exact ⟨pre, post, hts, ⟨more, hw _ hm⟩, hq⟩

theorem congr {p p' q : Parser α} (h : Tracks p' q φs ts) (hp : p ts = p' ts) :
    Tracks p q φs ts :=
  ⟨fun he => h.taken (hp ▸ he), fun he => h.raised (hp ▸ he), fun he => h.located (hp ▸ he)⟩

theorem of_stays {p q : Parser α} (h : ∀ r rest faults, p ts = ⟨r, rest, faults⟩ →
    (∀ e, r ≠ .error (.raised e)) ∧ Mild faults ∧ ∀ a, r = .ok a → ts = rest) :
    Tracks p q [] ts := by
  refine ⟨fun hp _ => ?_, fun hp => ?_, fun {before after f} hp hb hf => ?_⟩
  · exact ⟨[], (h _ _ _ hp).2.2 _ rfl, .nil⟩
  · exact absurd rfl ((h _ _ _ hp).1 _)
  · have hm := (h _ _ _ rfl).2.1
    rw [hp] at hm
    simp [hf] at hm

protected theorem pure (a : α) {q : Parser α} : Tracks (pure a) q [] ts := by
  refine of_stays fun r rest faults h => ?_
  cases h
  exact ⟨by simp, mild_nil, fun _ _ => rfl⟩

/-- There is no result, because of the depth or because there are no tokens. -/
theorem of_stop {p q : Parser α} {s : Stop} {rest : List Token} (hs : ∀ e, s ≠ .raised e)
    (h : p ts = ⟨.error s, rest, []⟩) : Tracks p q φs ts := by
  refine ⟨fun hp _ => ?_, fun hp => ?_, fun hp _ _ => ?_⟩
  · rw [h] at hp
    cases hp
  · rw [h] at hp
    cases hp
    exact absurd rfl (hs _)
  · rw [h] at hp
    simp at hp

protected theorem tooDeep {q : Parser α} : Tracks (stop .tooDeep) q φs ts :=
  of_stop (fun _ => by simp) rfl

protected theorem nil {p q : Parser α} (h : p [] = stop .pastEnd []) : Tracks p q φs [] :=
  of_stop (fun _ => by simp) h

theorem bind {p q : Parser α} {f g : α → Parser β} (hl : Local p q ts) (h : Tracks p q φs ts)
    (hf : ∀ a mid fs, p ts = ⟨.ok a, mid, fs⟩ → Tracks (f a) (g a) ψs mid) :
    Tracks (p >>= f) (q >>= g) (φs ++ ψs) ts := by
  refine ⟨fun {b rest faults} hb hm => ?_, fun {e rest faults} hb hm => ?_,
    fun {before after fault} hb hm hn => ?_⟩
  · rcases bind_cases hb with ⟨_, hs, _⟩ | ⟨a, mid, fs, fs', hp, ha, rfl⟩
    · cases hs
    obtain ⟨hm, hm'⟩ := mild_append.mp hm
    obtain ⟨us, rfl, hu⟩ := h.taken hp hm
    obtain ⟨vs, rfl, hv⟩ := (hf a mid fs hp).taken ha hm'
    exact ⟨us ++ vs, (List.append_assoc ..).symm, hu.append hv⟩
  · rcases bind_cases hb with ⟨_, hs, hp⟩ | ⟨a, mid, fs, fs', hp, ha, rfl⟩
    · cases hs
      exact h.raised hp hm
    · exact (hf a mid fs hp).raised ha (mild_append.mp hm).2
  · obtain ⟨ws, hw⟩ := Sequence.exists_of ψs
    have first {after' : List Fault} (hp : (p ts).faults = before ++ fault :: after') :
        Located (q >>= g) (φs ++ ψs) ts before fault := by
      obtain ⟨pre, post, hts, ⟨more, hmore⟩, hq⟩ := h.located hp hm hn
      refine ⟨pre, post, hts, ⟨more ++ ws, ?_⟩, fun post' => ?_⟩
      · rw [← List.append_assoc]
        exact hmore.append hw
      · obtain ⟨after, ha⟩ := hq post'
        obtain ⟨fs', hfs'⟩ := faults_bind q g (pre ++ fault.token :: post')
        exact ⟨after ++ fs', by rw [hfs', ha, List.append_assoc, List.cons_append]⟩
    rcases hp : p ts with ⟨s | a, mid, fs⟩
    · rw [bind_error hp] at hb
      exact first (by rw [hp, hb])
    rw [bind_ok hp] at hb
    rcases first_of_append hb hm with ⟨after', rfl⟩ | ⟨before', hfs, rfl, ha⟩
    · exact first (by rw [hp])
    obtain ⟨us, rfl, hu⟩ := h.taken hp hfs
    obtain ⟨used, hts, -, hq⟩ := hl _ _ _ hp trivial
    obtain rfl := List.append_cancel_right hts
    obtain ⟨pre, post, rfl, ⟨more, hmore⟩, hg⟩ :=
      (hf a mid fs hp).located ha (mild_append.mp hm).2 hn
    refine ⟨us ++ pre, post, (List.append_assoc ..).symm, ⟨more, ?_⟩, fun post' => ?_⟩
    · rw [List.append_assoc]
      exact hu.append hmore
    · obtain ⟨after', ha'⟩ := hg post'
      rw [List.append_assoc, bind_ok (hq _ (sameHead_of_append pre fault.token post post'))]
      exact ⟨after', by rw [ha', List.append_assoc]⟩

theorem bind_all {p q : Parser α} {f g : α → Parser β} (hl : Local p q ts) (h : Tracks p q φs ts)
    (hf : ∀ a us, Tracks (f a) (g a) ψs us) : Tracks (p >>= f) (q >>= g) (φs ++ ψs) ts :=
  h.bind hl fun a mid _ _ => hf a mid

theorem last {p q : Parser α} {f g : α → Parser β} (hl : Local p q ts) (h : Tracks p q φs ts)
    (hf : ∀ a us, Tracks (f a) (g a) [] us) : Tracks (p >>= f) (q >>= g) φs ts := by
  rw [← List.append_nil φs]
  exact h.bind_all hl hf

theorem map {p q : Parser α} (hl : Local p q ts) (h : Tracks p q φs ts) (f : α → β) :
    Tracks (f <$> p) (f <$> q) φs ts := by
  rw [← bind_pure_eq_map, ← bind_pure_eq_map]
  exact h.last hl fun _ _ => .pure _

theorem of_head {p q p' q' : Parser α} {t : Token} (hp : p (t :: us) = p' (t :: us))
    (hq : ∀ vs, q (t :: vs) = q' (t :: vs)) (h : Tracks p' q' φs (t :: us)) :
    Tracks p q φs (t :: us) := by
  refine ⟨fun he => h.taken (hp ▸ he), fun he => h.raised (hp ▸ he), fun he hb hf => ?_⟩
  obtain ⟨pre, post, hts, hmore, hq'⟩ := h.located (hp ▸ he) hb hf
  refine ⟨pre, post, hts, hmore, fun post' => ?_⟩
  obtain ⟨vs, hvs⟩ := head_of_append hts post'
  rw [hvs, hq, ← hvs]
  exact hq' post'

theorem of_token {p q p' q' : Parser α} {t : Token} (hp : p (t :: us) = p' us)
    (hq : ∀ vs, q (t :: vs) = q' vs) (hw : ∀ vs, Sequence φs vs → Sequence ψs (t :: vs))
    (h : Tracks p' q' φs us) : Tracks p q ψs (t :: us) := by
  refine ⟨fun he hm => ?_, fun he => h.raised (hp ▸ he), fun he hb hf => ?_⟩
  · obtain ⟨used, rfl, hu⟩ := h.taken (hp ▸ he) hm
    exact ⟨t :: used, rfl, hw _ hu⟩
  · obtain ⟨pre, post, rfl, ⟨more, hmore⟩, hq'⟩ := h.located (hp ▸ he) hb hf
    refine ⟨t :: pre, post, rfl, ⟨more, hw _ hmore⟩, fun post' => ?_⟩
    rw [List.cons_append, hq]
    exact hq' post'

theorem of_raise {p q : Parser α} {t : Token} {e : SyntaxError} (he : e ≠ .invalidTarget)
    (hp : p (t :: us) = raise t e (t :: us)) (hq : ∀ vs, q (t :: vs) = raise t e (t :: vs)) :
    Tracks p q φs (t :: us) := by
  refine ⟨fun h => ?_, fun h hm => ?_, fun {before after f} h hb hf => ?_⟩
  · rw [hp] at h
    cases h
  · rw [hp] at h
    cases h
    exact he (mild_cons.mp hm).1
  · rw [hp] at h
    have hone : [⟨t, e⟩] = before ++ f :: after := h
    cases before with
    | nil =>
      obtain ⟨rfl, rfl⟩ := List.cons.inj hone
      refine ⟨[], us, rfl, Sequence.exists_of φs, fun post' => ⟨[], ?_⟩⟩
      rw [List.nil_append, hq]
      rfl
    | cons g before => simp at hone

theorem accept (φ : Phrase) {accepted : Kind → Bool} {f g : Option Token → Parser β}
    (ho : ∀ t : Token, accepted t.kind → Derives looseRules φ [t])
    (hs : ∀ t us, us.length < ts.length → Tracks (f (some t)) (g (some t)) ψs us)
    (hn : Tracks (f none) (g none) χs ts) (hw : ∀ vs, Sequence (φ :: ψs) vs → Sequence χs vs) :
    Tracks (accept accepted >>= f) (Parser.accept accepted >>= g) χs ts := by
  cases ts with
  | nil => exact .nil rfl
  | cons t us =>
    by_cases ha : t.kind = .eof ∨ accepted t.kind = false
    · exact of_head (bind_of_silent (accept_none ha) f)
        (fun _ => bind_of_silent (accept_none ha) g) hn
    · obtain ⟨ht, ha⟩ : t.kind ≠ .eof ∧ accepted t.kind := by simpa using ha
      exact of_token (bind_of_silent (accept_some ht ha) f)
        (fun _ => bind_of_silent (accept_some ht ha) g)
        (fun vs hv => hw _ (.cons_singleton (ho t ha) hv)) (hs t us (by simp))

theorem accept_kind {k : Kind} {f g : Option Token → Parser β}
    (hs : ∀ t us, Tracks (f (some t)) (g (some t)) ψs us) (hn : Tracks (f none) (g none) χs ts)
    (hw : ∀ vs, Sequence (kind k :: ψs) vs → Sequence χs vs) :
    Tracks (Parser.accept (· == k) >>= f) (Parser.accept (· == k) >>= g) χs ts :=
  .accept (kind k) (fun _ h => .token (beq_iff_eq.mp h)) (fun t us _ => hs t us) hn hw

theorem expect {k : Kind} {e : SyntaxError} (hk : k ≠ .eof) (he : e ≠ .invalidTarget)
    {f g : Token → Parser β} (hf : ∀ t us, Tracks (f t) (g t) φs us) :
    Tracks (expect k e >>= f) (Parser.expect k e >>= g) (kind k :: φs) ts := by
  cases ts with
  | nil => exact .nil rfl
  | cons t us =>
    by_cases ht : t.kind = k
    · exact of_token (bind_of_silent (expect_ok e ht hk) f)
        (fun _ => bind_of_silent (expect_ok e ht hk) g) (fun _ => .token ht) (hf t us)
    · exact of_raise he (bind_error (expect_error e ht) f)
        (fun _ => bind_error (expect_error e ht) g)

theorem optional {k : Kind} {p q : Parser α} {f g : Option α → Parser β} (hk : k ≠ .eof)
    (hl : ∀ us, Local p q us) (h : ∀ us, Tracks p q [φ] us)
    (hf : ∀ x us, Tracks (f x) (g x) φs us) :
    Tracks
      (do
        let x ← if ← accepts k then some <$> p else Pure.pure none
        f x : Parser β)
      (do
        let x ← if ← accepts k then some <$> q else Pure.pure none
        g x : Parser β) (opt (kind k ++ φ) :: φs) ts := by
  cases ts with
  | nil => exact .nil rfl
  | cons t us =>
    by_cases ht : t.kind = k
    · refine of_token (optional_true ht hk) (fun _ => optional_true ht hk) (fun vs hv => ?_)
        ((h us).bind_all (hl us) fun a vs => hf (some a) vs)
      exact (Sequence.token ht hv).fuse.head fun _ => .some
    · refine of_head (optional_false ht) (fun _ => optional_false ht)
        ((hf none _).weaken fun us hu => ?_)
      exact .cons_nil .none hu

theorem omittable {k : Kind} {p q : Parser α} {f g : Option α → Parser β} (hk : k ≠ .eof)
    (hl : Local p q ts) (h : Tracks p q [φ] ts) (hf : ∀ x us, Tracks (f x) (g x) φs us) :
    Tracks
      (do
        let x ← if ← check k then Pure.pure none else some <$> p
        f x : Parser β)
      (do
        let x ← if ← check k then Pure.pure none else some <$> q
        g x : Parser β) (opt φ :: φs) ts := by
  cases ts with
  | nil => exact .nil rfl
  | cons t us =>
    by_cases ht : t.kind = k
    · refine of_head (unless_true ht hk) (fun _ => unless_true ht hk)
        ((hf none _).weaken fun us hu => ?_)
      exact .cons_nil .none hu
    · refine of_head (unless_false ht) (fun _ => unless_false ht) ?_
      exact (h.bind_all hl fun a vs => hf (some a) vs).weaken fun us hu => hu.head fun _ => .some

end Tracks

end Parser
end Lox
