import LlvmBootstrap.Proofs.Archive.Placing

/-!
The requests of a download and what is received. A download asks for one address, and then only
where it is sent on to; what it gives is what came with the last answer, if that was a success.
-/

namespace LlvmBootstrap

open Program

abbrev Sent := Url × Except Unit Response

def Answered.sent? : Answered → Option Sent
  | ⟨.send url, answer⟩ => some (url, answer)
  | _ => none

def sends (tr : List Answered) : List Sent := tr.filterMap Answered.sent?

@[simp] theorem sends_append (tr tr' : List Answered) :
    sends (tr ++ tr') = sends tr ++ sends tr' :=
  List.filterMap_append ..

theorem sends_eq_nil {tr : List Answered} (h : ∀ x ∈ tr, x.call.IsOwn) : sends tr = [] := by
  refine List.filterMap_eq_nil_iff.mpr fun x hx => ?_
  obtain ⟨c, answer⟩ := x
  cases c with
  | send url => exact (h _ hx).elim
  | _ => rfl

namespace Download

/-- One request and those it is sent on to, each by the answer to the one before. -/
inductive Requests : Url → List Sent → Prop
  | one (url : Url) (answer : Except Unit Response) : Requests url [(url, answer)]
  | sentOn {url next : Url} {r : Response} {rest : List Sent}
      (hredirect : isRedirect r.status = true)
      (hnext : r.location.bind url.resolve? = some next) (h : Requests next rest) :
      Requests url ((url, .ok r) :: rest)

def IsSuccess (r : Response) : Prop := 200 ≤ r.status ∧ r.status < 300

instance (r : Response) : Decidable (IsSuccess r) := inferInstanceAs (Decidable (_ ∧ _))

/-- The file in the last answer, if that was a success. -/
def received? (sent : List Sent) : Option Bytes :=
  match sent.getLast? with
  | some (_, .ok r) => if IsSuccess r then some r.body else none
  | _ => none

def ComesTo (sent : List Sent) : Except String Response → Prop
  | .ok r => ∃ url, sent.getLast? = some (url, .ok r)
  | .error _ => received? sent = none

variable {σ : Type} {o : Outside σ} {w w' : World σ} {tr : List Answered} {url next : Url}
  {sent : List Sent} {r : Response} {left : Nat}

theorem not_isSuccess_of_isRedirect (h : isRedirect r.status = true) : ¬ IsSuccess r := by
  intro hsuccess
  simp only [isRedirect, List.contains_iff_mem, List.mem_cons, List.not_mem_nil, or_false] at h
  unfold IsSuccess at hsuccess
  omega

theorem ComesTo.sentOn {res : Except String Response} (hredirect : isRedirect r.status = true)
    (h : ComesTo sent res) : ComesTo ((url, .ok r) :: sent) res := by
  cases sent with
  | nil =>
      cases res with
      | ok r' =>
          obtain ⟨u, hu⟩ := h
          contradiction
      | error e => exact if_neg (not_isSuccess_of_isRedirect hredirect)
  | cons x sent =>
      cases res with
      | ok r' =>
          obtain ⟨u, hu⟩ := h
          exact ⟨u, by rw [List.getLast?_cons_cons, hu]⟩
      | error e =>
          change received? _ = none at h
          rw [received?] at h
          rw [ComesTo, received?, List.getLast?_cons_cons]
          exact h

/-- What is asked for from one address on, and what it comes to. -/
theorem sends_of_request {res : Except String Response}
    (h : (request url left).run.Goes o w res tr w') :
    (sends tr = [] ∨ Requests url (sends tr)) ∧ ComesTo (sends tr) res := by
  -- On the number of times it may still be sent on; what it is sent on to tells the rest.
  induction left generalizing url w tr with
  | zero =>
      obtain ⟨rfl, rfl, -⟩ := h.of_pure
      exact ⟨.inl rfl, rfl⟩
  | succ left ih =>
      rw [request] at h
      by_cases hfetchable : url.isFetchable = true
      · simp only [hfetchable, Bool.not_true, Bool.false_eq_true, if_false] at h
        obtain ⟨answer, w₁, tr₁, tr₂, hsend, h₁, rfl⟩ := h.of_attempt_lift_bind
        obtain ⟨-, rfl⟩ := hsend.of_ask
        have hfirst : sends ([⟨.send url, answer⟩] ++ tr₂) = (url, answer) :: sends tr₂ := rfl
        rw [hfirst]
        cases answer with
        | error e =>
            obtain ⟨rfl, rfl, -⟩ := h₁.of_pure
            exact ⟨.inr (.one ..), rfl⟩
        | ok r =>
            dsimp only at h₁
            split at h₁
            · next next hnext =>
              obtain ⟨hredirect, hnext⟩ := Option.ite_none_right_eq_some.mp hnext
              obtain ⟨hsends, hcomes⟩ := ih h₁
              refine ⟨.inr ?_, hcomes.sentOn hredirect⟩
              rcases hsends with hnone | hrequests
              · rw [hnone]
                exact .one ..
              · exact .sentOn hredirect hnext hrequests
            · obtain ⟨rfl, rfl, -⟩ := h₁.of_pure
              exact ⟨.inr (.one ..), url, rfl⟩
      · simp only [Bool.not_eq_true] at hfetchable
        simp only [hfetchable, Bool.not_false, if_true] at h
        obtain ⟨rfl, rfl, -⟩ := h.of_pure
        exact ⟨.inl rfl, rfl⟩

/-- What is asked for to get the file at an address, and what it comes to. -/
theorem sends_of_body {address : String} {res : Except String Bytes}
    (h : (body address).run.Goes o w res tr w') :
    (sends tr = [] ∨ ∃ url, Url.ofText? address = some url ∧ Requests url (sends tr)) ∧
      res.toOption = received? (sends tr) := by
  rw [body] at h
  split at h
  · next url hurl =>
    obtain ⟨e, rfl, hrequest⟩ | ⟨r, w₁, tr₁, tr₂, hrequest, h₁, rfl⟩ := h.of_attempt_bind
    · obtain ⟨hsends, hcomes⟩ := sends_of_request hrequest
      exact ⟨hsends.imp_right fun hrequests => ⟨url, hurl, hrequests⟩, hcomes.symm⟩
    · obtain ⟨hsends, u, hlast⟩ := sends_of_request hrequest
      have hend : tr₂ = [] ∧ res.toOption = if IsSuccess r then some r.body else none := by
        split at h₁
        · next hsuccess =>
          obtain ⟨rfl, rfl, -⟩ := h₁.of_pure
          exact ⟨rfl, (if_pos hsuccess).symm⟩
        · next hsuccess =>
          obtain ⟨rfl, rfl, -⟩ := h₁.of_pure
          exact ⟨rfl, (if_neg hsuccess).symm⟩
      obtain ⟨rfl, hres⟩ := hend
      rw [List.append_nil, hres, received?, hlast]
      exact ⟨hsends.imp_right fun hrequests => ⟨url, hurl, hrequests⟩, rfl⟩
  · obtain ⟨rfl, rfl, -⟩ := h.of_pure
    exact ⟨.inl rfl, rfl⟩

/-- A download gives what it receives, and fails if that is nothing. -/
theorem sends_of_download {address : String} {res : Except SourceError Bytes}
    (h : (download address).run.Goes o w res tr w') :
    (sends tr = [] ∨ ∃ url, Url.ofText? address = some url ∧ Requests url (sends tr)) ∧
      res.toOption = received? (sends tr) ∧ ∀ e, res = .error e →
        ∃ reason, e = .transfer address reason := by
  obtain ⟨_, w₁, tr₁, tr₂, hsaid, h₁, rfl⟩ := h.of_attempt_lift_bind
  have htr₁ : sends tr₁ = [] := by
    rw [hsaid.of_ask.2]
    rfl
  rw [sends_append, htr₁, List.nil_append]
  rw [ExceptT.run_bind, run_adapt, LawfulMonad.bind_assoc] at h₁
  obtain ⟨got, w₂, tr₃, tr₄, hbody, h₂, rfl⟩ := h₁.of_bind
  obtain ⟨hsends, hgot⟩ := sends_of_body hbody
  -- Behind the body there is a log line if it was received, and nothing is sent any more.
  have hend : sends tr₄ = [] ∧ res = got.mapError (.transfer address) := by
    cases got with
    | error reason =>
        obtain ⟨rfl, rfl, -⟩ := h₂.of_pure
        exact ⟨rfl, rfl⟩
    | ok file =>
        obtain ⟨_, w₃, tr₅, tr₆, hsaid', h₃, rfl⟩ := h₂.of_attempt_lift_bind
        obtain ⟨rfl, rfl, -⟩ := h₃.of_pure
        rw [List.append_nil, hsaid'.of_ask.2]
        exact ⟨rfl, rfl⟩
  obtain ⟨htr₄, rfl⟩ := hend
  rw [sends_append, htr₄, List.append_nil]
  refine ⟨hsends, ?_, ?_⟩
  · rw [← hgot]
    cases got <;> rfl
  · rintro e he
    cases got with
    | error reason => exact ⟨reason, (Except.error.inj he).symm⟩
    | ok file => contradiction

end Download

end LlvmBootstrap
