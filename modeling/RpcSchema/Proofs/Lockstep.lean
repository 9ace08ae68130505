import RpcSchema.Proofs.Completeness
import RpcSchema.Proofs.History
import RpcSchema.Proofs.Keywords
import RpcSchema.Proofs.Parallel
import RpcSchema.Proofs.Strictness

/-! The productions in two buffers at once. From paired positions every production ends alike in
both, whichever way it ends, so that two whole readings do. -/
namespace RpcSchema.Grammar

open Rule

variable {policy : Policy} {pair : Nat → Nat → Prop} {b b' : Buffer} {s s' : State Declared}

theorem parallel_literal (pairing : b.Pairing b' pair) (t : Token) {text : String}
    (chars : t.chars = text.toList) (beside : s.Beside pair s') :
    (keyword [text]).Parallel pair (keyword [text]) b b' s s' (State.Beside pair) := by
  have ran := literal_apply t chars (pairing.start beside.offset) beside.place
  have ran' := literal_apply t chars (pairing.start' beside.offset) beside.place'
  rw [← pairing.holds_eq beside.offset] at ran'
  cases found : b.holds s.offset t.chars with
  | true =>
    rw [found, if_pos rfl] at ran ran'
    have past := pairing.pastToken beside.offset found
    exact .ok text _ _ ran ran' (beside.toEven.moveTo past)
  | false =>
    rw [found, if_neg Bool.false_ne_true] at ran ran'
    simp only [pairing.size_le_iff beside.offset] at ran
    split at ran
    · next ended =>
      rw [if_pos ended] at ran'
      exact .error _ _ _ _ ran ran' ⟨beside.offset, rfl⟩ (beside.backFrom _ _).toEven
    · next unread =>
      rw [if_neg unread] at ran'
      exact .error _ _ _ _ ran ran' ⟨beside.offset, rfl⟩ (beside.backFrom _ _).toEven

theorem parallel_trySign (pairing : b.Pairing b' pair) (t : Sign) (beside : s.Beside pair s') :
    (tryKeyword [t.text]).Parallel pair (tryKeyword [t.text]) b b' s s' (State.Beside pair) := by
  cases parallel_literal pairing (.sign t) rfl beside with
  | ok text u u' ran ran' met =>
    exact .ok (some text) u u' (tryKeyword_of_ok ran) (tryKeyword_of_ok ran') met
  | error e e' u u' ran ran' alike even =>
    obtain ⟨rfl, _⟩ := keyword_error ran
    obtain ⟨rfl, _⟩ := keyword_error ran'
    exact .ok none _ _ (tryKeyword_of_error ran) (tryKeyword_of_error ran')
      (beside.backFrom _ _)

theorem parallel_string (pairing : b.Pairing b' pair) (beside : s.Beside pair s') :
    string.Parallel pair string b b' s s' (State.Near pair b b') := by
  obtain ⟨classes, sound, ran⟩ := nameChar_apply beside.sound b
  obtain ⟨classes', sound', ran'⟩ := nameChar_apply beside.sound' b'
  rw [← pairing.get?_eq beside.offset] at ran'
  cases found : b.get? s.offset with
  | none =>
    rw [found] at ran ran'
    exact .error _ _ _ _ (bind_of_error ran) (bind_of_error ran') ⟨beside.offset, rfl⟩
      ⟨beside.held_eq, sound, sound'⟩
  | some c =>
    rw [found] at ran ran'
    cases named : isNameChar c with
    | false =>
      simp only [named, Bool.false_eq_true, if_false] at ran ran'
      exact .error _ _ _ _ (bind_of_error ran) (bind_of_error ran') ⟨beside.offset, rfl⟩
        ⟨beside.held_eq, sound, sound'⟩
    | true =>
      obtain ⟨w, _, word⟩ := Buffer.exists_word (b := b) (o := s.offset)
        (by simp [Buffer.wordAt_of_get? found named])
      have word' := (pairing.wordAt_eq beside.offset).symm.trans word
      obtain ⟨_, t, read, rfl, place⟩ := (gives_string word beside.place).exists_ok
      obtain ⟨_, t', read', rfl, place'⟩ := (gives_string word' beside.place').exists_ok
      have past := pairing.pastToken beside.offset (Buffer.has_word Token.isWord word).holds
      refine .ok w.text t t' read read' (State.Even.moveTo ⟨?_, place.sound, place'.sound⟩ ?_)
      · rw [place.held_eq, place'.held_eq, beside.held_eq]
      · rw [place.offset_eq, place'.offset_eq]
        exact past

theorem parallel_identifier (pairing : b.Pairing b' pair) (beside : s.Beside pair s') :
    identifier.Parallel pair identifier b b' s s' (State.Beside pair) :=
  parallel_choice pairing
    (List.forall_mem_singleton.2 fun _ _ beside => parallel_string pairing beside) beside

theorem parallel_pair (pairing : b.Pairing b' pair) (beside : s.Beside pair s') :
    Grammar.pair.Parallel pair Grammar.pair b b' s s' (State.Beside pair) := by
  refine (parallel_identifier pairing beside).bind fun name s₁ s₁' _ _ beside₁ => ?_
  refine (parallel_literal pairing (.sign .colon) rfl beside₁).bind fun _ s₂ s₂' _ _ beside₂ => ?_
  refine (parallel_identifier pairing beside₂).bind fun type s₃ s₃' _ _ beside₃ => ?_
  exact parallel_pure (name, type) beside₃

theorem parallel_tryPair (pairing : b.Pairing b' pair) (beside : s.Beside pair s') :
    (tryChoice [⟨"pair", Grammar.pair⟩]).Parallel pair (tryChoice [⟨"pair", Grammar.pair⟩]) b b'
      s s' (State.Beside pair) := by
  refine parallel_tryChoice pairing (List.forall_mem_singleton.2 fun _ _ beside => ?_) beside
  exact (parallel_pair pairing beside).imp fun _ _ met => met.near pairing

theorem parallel_refuseBrace (pairing : b.Pairing b' pair) (beside : s.Beside pair s') :
    refuseBrace.Parallel pair refuseBrace b b' s s' (State.Beside pair) := by
  have ran := refuseBrace_apply (pairing.start beside.offset) beside.place
  have ran' := refuseBrace_apply (pairing.start' beside.offset) beside.place'
  rw [← pairing.get?_eq beside.offset] at ran'
  split at ran
  · next brace =>
    rw [if_pos brace] at ran'
    exact .error _ _ _ _ ran ran' ⟨beside.offset, rfl⟩ beside.toEven
  · next other =>
    rw [if_neg other] at ran'
    exact .ok () _ _ ran ran' beside

theorem offset_lt_of_field (tight : b.Tight) {t u : State Declared} {read : String × String}
    {comma : String} (start : b.Start s.offset) (sound : s.classes.Sound)
    (field : tryChoice [⟨"pair", Grammar.pair⟩] b s = (.ok (some read), t))
    (more : tryKeyword [","] b t = (.ok (some comma), u)) : s.offset < u.offset := by
  obtain ⟨f, o, spelled, _, place⟩ := (leads_tryPair tight start ⟨rfl, rfl, sound⟩).of_ok field
  obtain ⟨_, place'⟩ := (leads_trySign .comma (spelled.start tight start) place).of_ok more
  rw [place'.offset_eq]
  exact Nat.lt_trans (spelled.lt (by simp [Field.tokens])) (b.lt_pastToken o _)

/-- The limits may differ, as long as both are large enough. -/
theorem parallel_fields (pairing : b.Pairing b' pair) {limit limit' : Nat}
    (enough : b.size < s.offset + limit) (enough' : b'.size < s'.offset + limit')
    (afterComma : Bool) (body : Body) (beside : s.Beside pair s') :
    (fields policy limit afterComma body).Parallel pair (fields policy limit' afterComma body) b b'
      s s' (State.Beside pair) := by
  have start := pairing.start beside.offset
  have start' := pairing.start' beside.offset
  induction limit generalizing s s' limit' afterComma body with
  | zero => exact absurd enough (Nat.not_lt.2 start.le_size)
  | succ limit ih =>
    cases limit' with
    | zero => exact absurd enough' (Nat.not_lt.2 start'.le_size)
    | succ limit' =>
      refine (parallel_tryPair pairing beside).bind fun value s₁ s₁' field field' beside₁ => ?_
      match value with
      | none =>
        dsimp only
        split
        · exact (parallel_refuseBrace pairing beside₁).bind fun _ _ _ _ _ met =>
            parallel_pure body met
        · exact parallel_pure body beside₁
      | some (name, type) =>
        refine (parallel_trySign pairing .comma beside₁).bind
          fun value s₂ s₂' more more' beside₂ => ?_
        match value with
        | none => exact parallel_pure (body.insert name type) beside₂
        | some _ =>
          have further := offset_lt_of_field pairing.tight start beside.sound field more
          have further' := offset_lt_of_field pairing.tight' start' beside.sound' field' more'
          exact ih (by omega) (by omega) true (body.insert name type) beside₂
            (pairing.start beside₂.offset) (pairing.start' beside₂.offset)

theorem parallel_body (pairing : b.Pairing b' pair) (beside : s.Beside pair s') :
    (body policy).Parallel pair (body policy) b b' s s' (State.Beside pair) := by
  refine (parallel_literal pairing (.sign .openBrace) rfl beside).bind
    fun _ s₁ s₁' _ _ beside₁ => ?_
  refine Parallel.bind_known rfl rfl ?_
  refine (parallel_fields pairing (by omega) (by omega) false .empty beside₁).bind
    fun read s₂ s₂' _ _ beside₂ => ?_
  exact (parallel_literal pairing (.sign .closeBrace) rfl beside₂).bind
    fun _ _ _ _ _ beside₃ => parallel_pure read beside₃

theorem parallel_declare {start start' : Nat} (paired : pair start start') (name : String)
    (body : Body) (beside : s.Beside pair s') :
    (declare policy start name body).Parallel pair (declare policy start' name body) b b' s s'
      (State.Beside pair) := by
  have held' : (Rule.held : Production Declared) b' s' = (.ok s.held, s') := by
    rw [beside.held_eq]
    rfl
  refine Parallel.bind_known rfl held' ?_
  dsimp only
  split
  · exact parallel_fail _ paired beside.toEven
  · refine Parallel.bind_known rfl rfl ?_
    split
    · exact .ok () _ _ rfl rfl ⟨⟨rfl, beside.sound, beside.sound'⟩, beside.offset⟩
    · exact .ok () _ _ rfl rfl ⟨⟨rfl, beside.sound, beside.sound'⟩, beside.offset⟩

theorem parallel_message (pairing : b.Pairing b' pair) (beside : s.Beside pair s') :
    (message policy).Parallel pair (message policy) b b' s s' (State.Beside pair) := by
  refine (parallel_literal pairing (.keyword .message) rfl beside).bind
    fun _ s₁ s₁' _ _ beside₁ => ?_
  have beside₂ := beside₁.near pairing
  refine Parallel.bind_known rfl rfl (Parallel.bind_known rfl rfl ?_)
  refine (parallel_string pairing beside₂).bind fun name s₃ s₃' _ _ near => ?_
  refine Parallel.bind_known rfl rfl ?_
  refine (parallel_body pairing near).bind fun body s₄ s₄' _ _ beside₄ => ?_
  exact (parallel_declare beside₂.offset name body beside₄).bind
    fun _ _ _ _ _ beside₅ => parallel_pure (name, body) beside₅

theorem parallel_reference (pairing : b.Pairing b' pair) (role : Role)
    (beside : s.Beside pair s') :
    (reference role).Parallel pair (reference role) b b' s s' (State.Beside pair) := by
  have beside₁ := beside.near pairing
  refine Parallel.bind_known rfl rfl (Parallel.bind_known rfl rfl ?_)
  refine (parallel_identifier pairing beside₁).bind fun name s₂ s₂' _ _ beside₂ => ?_
  refine Parallel.bind_known rfl rfl ?_
  rw [← beside₂.held_eq]
  split
  · exact parallel_pure _ beside₂
  · exact parallel_fail _ beside₁.offset beside₂.toEven

theorem parallel_method (pairing : b.Pairing b' pair) (beside : s.Beside pair s') :
    method.Parallel pair method b b' s s' (State.Beside pair) := by
  refine (parallel_literal pairing (.keyword .method) rfl beside).bind
    fun _ s₁ s₁' _ _ beside₁ => ?_
  refine (parallel_identifier pairing beside₁).bind fun name s₂ s₂' _ _ beside₂ => ?_
  refine (parallel_literal pairing (.sign .openParen) rfl beside₂).bind
    fun _ s₃ s₃' _ _ beside₃ => ?_
  refine (parallel_reference pairing .request beside₃).bind
    fun request s₄ s₄' _ _ beside₄ => ?_
  refine (parallel_literal pairing (.sign .closeParen) rfl beside₄).bind
    fun _ s₅ s₅' _ _ beside₅ => ?_
  refine (parallel_literal pairing (.sign .arrow) rfl beside₅).bind
    fun _ s₆ s₆' _ _ beside₆ => ?_
  refine (parallel_reference pairing .response beside₆).bind
    fun response s₇ s₇' _ _ beside₇ => ?_
  refine (parallel_literal pairing (.sign .semicolon) rfl beside₇).bind
    fun _ s₈ s₈' _ _ beside₈ => ?_
  refine Parallel.bind_known rfl rfl (Parallel.bind_known rfl rfl (parallel_pure _ ?_))
  refine ⟨⟨?_, beside₈.sound, beside₈.sound'⟩, beside₈.offset⟩
  simp only [State.holding_held, beside₈.held_eq]

theorem parallel_complexType (pairing : b.Pairing b' pair) (beside : s.Beside pair s') :
    (complexType policy).Parallel pair (complexType policy) b b' s s' (State.Beside pair) := by
  refine parallel_choice pairing (List.forall_mem_cons.2 ⟨fun _ _ beside => ?_,
    List.forall_mem_singleton.2 fun _ _ beside => ?_⟩) beside
  · exact ((parallel_method pairing beside).map _).imp fun _ _ met => met.near pairing
  · exact ((parallel_message pairing beside).map _).imp fun _ _ met => met.near pairing

theorem parallel_anyType (pairing : b.Pairing b' pair) (beside : s.Beside pair s') :
    (anyType policy).Parallel pair (anyType policy) b b' s s' (State.Beside pair) := by
  refine parallel_choice pairing (List.forall_mem_cons.2 ⟨fun _ _ beside => ?_,
    List.forall_mem_singleton.2 fun _ _ beside => ?_⟩) beside
  · exact (parallel_complexType pairing beside).imp fun _ _ met => met.near pairing
  · exact ((parallel_identifier pairing beside).map _).imp fun _ _ met => met.near pairing

theorem parallel_declaration (pairing : b.Pairing b' pair) (beside : s.Beside pair s') :
    (declaration policy).Parallel pair (declaration policy) b b' s s' (State.Beside pair) := by
  refine parallel_choice pairing (List.forall_mem_singleton.2 fun _ _ beside => ?_) beside
  exact (parallel_anyType pairing beside).imp fun _ _ met => met.near pairing

theorem offset_lt_of_declaration (tight : b.Tight) (start : b.Start s.offset)
    (sound : s.classes.Sound) (unread : s.offset < b.size) {read : Declaration}
    {t : State Declared} (ran : declaration policy b s = (.ok read, t)) : s.offset < t.offset := by
  obtain ⟨phrase, o, spelled, _, _, place⟩ :=
    (leads_declaration tight start unread ⟨rfl, rfl, sound⟩).of_ok ran
  rw [place.offset_eq]
  exact spelled.lt (tokens_ne_nil phrase)

theorem parallel_rounds (pairing : b.Pairing b' pair) {limit limit' : Nat}
    (enough : b.size ≤ s.offset + limit) (enough' : b'.size ≤ s'.offset + limit')
    (beside : s.Beside pair s') :
    (rounds policy limit).Parallel pair (rounds policy limit') b b' s s' (State.Beside pair) := by
  have start := pairing.start beside.offset
  have start' := pairing.start' beside.offset
  induction limit generalizing s s' limit' with
  | zero =>
    have ended' := (pairing.size_le_iff beside.offset).1 enough
    exact .ok () s s' rfl (rounds_of_ended ended') beside
  | succ limit ih =>
    by_cases ended : b.size ≤ s.offset
    · have ended' := (pairing.size_le_iff beside.offset).1 ended
      exact .ok () s s' (rounds_of_ended ended) (rounds_of_ended ended') beside
    · have unread := Nat.lt_of_not_le ended
      have unread' := Nat.lt_of_not_le fun past =>
        ended ((pairing.size_le_iff beside.offset).2 past)
      cases limit' with
      -- A limit covers what is unread, so it is not used up here.
      | zero => exact absurd enough' (Nat.not_le.2 unread')
      | succ limit' =>
        have both : (declaration policy).Parallel pair (declaration policy) b b' s s'
            (State.Beside pair) := parallel_declaration pairing beside
        cases both with
        | error e e' t t' ran ran' alike even =>
          exact .error e e' t t' (rounds_of_error unread ran) (rounds_of_error unread' ran') alike
            even
        | ok read t t' ran ran' beside' =>
          have further := offset_lt_of_declaration pairing.tight start beside.sound unread ran
          have further' := offset_lt_of_declaration pairing.tight' start' beside.sound' unread' ran'
          have noted := beside'.note read.event read.event
          refine (ih ?_ ?_ noted (pairing.start noted.offset) (pairing.start' noted.offset)).congr
            (rounds_of_ok unread ran further) (rounds_of_ok unread' ran' further')
          · rw [State.note_offset]
            omega
          · rw [State.note_offset]
            omega

theorem parallel_source (pairing : b.Pairing b' pair) (beside : s.Beside pair s') :
    (source policy).Parallel pair (source policy) b b' s s' (State.Beside pair) := by
  refine Parallel.bind_known rfl rfl ?_
  refine (parallel_rounds pairing (by omega) (by omega) beside).bind
    fun _ s₁ s₁' _ _ beside₁ => ?_
  refine Parallel.bind_known rfl rfl ?_
  rw [← beside₁.held_eq]
  exact Parallel.bind_known rfl rfl (parallel_pure _ (beside₁.note _ _))

end RpcSchema.Grammar
