import Optics.Base
import Optics.Lib.Patterns

/-! # The router

`utils/crest/router.c` and the part of `utils/crest/path.c` it rests on. A node of the router keeps a
resource for the patterns that end there, one for those that go on with a star, a node behind a
wildcard and a list of nodes behind constants; a request is looked up in the node of its head, then
behind the wildcard, then in the star, and a search that fails comes back.

`Router.get` reads a router as a dictionary of patterns (`Lib.Patterns`). `routerAdd_get` says that a
call of `router_add` adds one pattern to it or finds the pattern there, `routerRoute_finds` that
`router_route` returns the resource of the least pattern that matches. -/

namespace Optics.Utils.Routing

open Optics.Base Optics.Lib.Patterns

/-! ### Paths -/

/-- `enum token_type`. -/
inductive TokenType where
  | star | wildcard | const
  deriving DecidableEq, Repr

/-- `path_token_type`, by the first byte: `*` or `:`. -/
def pathTokenType (item : CStr) : TokenType :=
  match item.val.head? with
  | some 42 => .star
  | some 58 => .wildcard
  | _ => .const

/-- `struct path`: the items that are left. `path_empty`, `path_head` and `path_tail` are the cases of
the list. -/
abbrev Path := List CStr

/-- A path matches a request, token by token. -/
def pathMatches : Path → Path → Prop
  | [], [] => True
  | [], _ :: _ => False
  | head :: tail, request =>
    match pathTokenType head, request with
    | .star, _ => True
    | .wildcard, _ :: rest => pathMatches tail rest
    | .const, item :: rest => head = item ∧ pathMatches tail rest
    | _, [] => False

/-- The pattern of a path, without the names of wildcards and what follows a star. -/
def normalForm : Path → List (Token CStr)
  | [] => []
  | head :: tail =>
    match pathTokenType head with
    | .star => [.star]
    | .wildcard => .wildcard :: normalForm tail
    | .const => .const head :: normalForm tail

theorem pathMatches_iff : ∀ (path request : Path),
    pathMatches path request ↔ Matches (normalForm path) request
  | [], [] => Iff.rfl
  | [], _ :: _ => Iff.rfl
  | head :: tail, request => by
    unfold pathMatches normalForm
    rcases pathTokenType head with _ | _ | _
    · exact Iff.rfl
    · cases request with
      | nil => exact Iff.rfl
      | cons item rest => exact pathMatches_iff tail rest
    · cases request with
      | nil => exact Iff.rfl
      | cons item rest => exact and_congr_right fun _ => pathMatches_iff tail rest

theorem normal_normalForm : ∀ path : Path, Normal (normalForm path)
  | [] => trivial
  | head :: tail => by
    unfold normalForm
    rcases pathTokenType head with _ | _ | _
    · exact rfl
    · exact normal_normalForm tail
    · exact normal_normalForm tail

/-! ### Routers -/

/-- `struct router`; a `struct routing_entry` is a pair. -/
structure Router (R : Type) where
  star : Option R
  exact : Option R
  wildcards : Option (Router R)
  consts : List (CStr × Router R)

/-- `struct router router = {0}`. -/
def Router.zero {R : Type} : Router R := ⟨none, none, none, []⟩

section Ops
variable {R : Type}

theorem Router.eta (router : Router R) :
    (⟨router.star, router.exact, router.wildcards, router.consts⟩ : Router R) = router := by
  cases router
  rfl

/-- The loop over the constants: the node of the first entry with the value. -/
def findConst (head : CStr) : List (CStr × Router R) → Option (Router R)
  | [] => none
  | (value, router) :: rest => if value = head then some router else findConst head rest

/-- That entry with another node. -/
def setConst (head : CStr) (sub : Router R) : List (CStr × Router R) → List (CStr × Router R)
  | [] => []
  | (value, router) :: rest =>
    if value = head then (value, sub) :: rest else (value, router) :: setConst head sub rest

/-- `router_append`, with the node that the caller goes on to fill. -/
def routerAppend (router : Router R) (head : CStr) (sub : Router R) : Router R :=
  { router with consts := router.consts ++ [(head, sub)] }

/-- `router_add`. -/
def routerAdd (res : R) : Path → Router R → Bool × Router R
  | [], router =>
    if router.exact.isSome then (false, router) else (true, { router with exact := some res })
  | head :: tail, router =>
    match pathTokenType head with
    | .star => if router.star.isSome then (false, router) else (true, { router with star := some res })
    | .wildcard =>
      let (ok, sub) := routerAdd res tail (router.wildcards.getD .zero)
      (ok, { router with wildcards := some sub })
    | .const =>
      match findConst head router.consts with
      | some sub =>
        let (ok, sub) := routerAdd res tail sub
        (ok, { router with consts := setConst head sub router.consts })
      | none =>
        let (ok, sub) := routerAdd res tail .zero
        (ok, routerAppend router head sub)

/-- `router_route`: a result that is null leads on. -/
def routerRoute (router : Router R) : Path → Option R
  | [] => router.exact <|> router.star
  | head :: tail =>
    ((findConst head router.consts).bind fun sub => routerRoute sub tail) <|>
      (router.wildcards.bind fun sub => routerRoute sub tail) <|> router.star

/-- Calls of `router_add`, one after the other: those that are accepted, and the router. -/
def addAll : List (Path × R) → Router R → List (Path × R) × Router R
  | [], router => ([], router)
  | (path, res) :: calls, router =>
    let (ok, router) := routerAdd res path router
    let (accepted, router) := addAll calls router
    (if ok then (path, res) :: accepted else accepted, router)

/-! ### A router as a dictionary -/

/-- The resource of a pattern. -/
def Router.get : List (Token CStr) → Router R → Option R
  | [], router => router.exact
  | [.star], router => router.star
  | .star :: _ :: _, _ => none
  | .wildcard :: p, router => router.wildcards.bind (Router.get p)
  | .const k :: p, router => (findConst k router.consts).bind (Router.get p)

/-- The dictionary. -/
def Router.dict (router : Router R) : Dict CStr R := fun p => router.get p

theorem Router.get_zero : ∀ p : List (Token CStr), (Router.zero : Router R).get p = none
  | [] => rfl
  | [.star] => rfl
  | .star :: _ :: _ => rfl
  | .wildcard :: _ => rfl
  | .const _ :: _ => rfl

theorem Router.normalDict : ∀ router : Router R, NormalDict router.dict := by
  intro router p
  induction p generalizing router with
  | nil => exact fun _ _ => trivial
  | cons t p ih =>
    intro v h
    cases t with
    | star =>
      cases p with
      | nil => exact rfl
      | cons u p => cases h
    | wildcard =>
      obtain ⟨sub, -, hsub⟩ := Option.bind_eq_some_iff.mp h
      exact ih sub v hsub
    | const k =>
      obtain ⟨sub, -, hsub⟩ := Option.bind_eq_some_iff.mp h
      exact ih sub v hsub

theorem finds_bind {o : Option (Router R)} {D : Dict CStr R} {request : Path}
    (hD : ∀ p, D p = o.bind (Router.get p))
    (ih : ∀ sub : Router R, Finds sub.dict request (routerRoute sub request)) :
    Finds D request (o.bind fun sub => routerRoute sub request) := by
  cases o with
  | none =>
    intro p v hp
    rw [hD p] at hp
    cases hp
  | some sub =>
    have hsub : D = sub.dict := funext hD
    rw [hsub]
    exact ih sub

/-- **`router_route`** finds the least pattern that matches. -/
theorem routerRoute_finds (router : Router R) (request : Path) :
    Finds router.dict request (routerRoute router request) := by
  induction request generalizing router with
  | nil => exact finds_nil router.normalDict
  | cons head tail ih =>
    exact finds_cons router.normalDict (finds_bind (fun _ => rfl) ih) (finds_bind (fun _ => rfl) ih)

/-! ### Adding -/

theorem findConst_set {head : CStr} {sub : Router R} : ∀ {l : List (CStr × Router R)}
    {old : Router R}, findConst head l = some old → ∀ k,
      findConst k (setConst head sub l) = if k = head then some sub else findConst k l
  | (value, router) :: rest, old, h, k => by
    unfold findConst at h
    unfold setConst
    split_ifs at h with hv
    · rw [if_pos hv]
      unfold findConst
      subst hv
      by_cases hk : value = k
      · rw [if_pos hk, if_pos hk.symm]
      · rw [if_neg hk, if_neg (Ne.symm hk), if_neg hk]
    · rw [if_neg hv]
      unfold findConst
      rw [findConst_set h k]
      by_cases hk : value = k
      · rw [if_pos hk, if_neg fun hc => hv (hk.trans hc), if_pos hk]
      · rw [if_neg hk, if_neg hk]

theorem setConst_self {head : CStr} : ∀ {l : List (CStr × Router R)} {old : Router R},
    findConst head l = some old → setConst head old l = l
  | (value, router) :: rest, old, h => by
    unfold findConst at h
    unfold setConst
    split_ifs at h with hv
    · cases h
      rw [if_pos hv]
    · rw [if_neg hv, setConst_self h]

theorem findConst_append {head : CStr} {sub : Router R} : ∀ {l : List (CStr × Router R)},
    findConst head l = none → ∀ k,
      findConst k (l ++ [(head, sub)]) = if k = head then some sub else findConst k l
  | [], _, k => by
    by_cases hk : k = head
    · simp [findConst, hk]
    · simp [findConst, hk, Ne.symm hk]
  | (value, router) :: rest, h, k => by
    unfold findConst at h
    split_ifs at h with hv
    rw [List.cons_append]
    unfold findConst
    rw [findConst_append h k]
    by_cases hk : value = k
    · rw [if_pos hk, if_neg fun hc => hv (hk.trans hc), if_pos hk]
    · rw [if_neg hk, if_neg hk]

/-- What a call may do: find the pattern and change nothing, or add it. -/
def AddSpec (res : R) (path : Path) (router : Router R) (r : Bool × Router R) : Prop :=
  (r.1 = false ∧ r.2 = router ∧ (router.get (normalForm path)).isSome) ∨
  (r.1 = true ∧ router.get (normalForm path) = none ∧
    ∀ p, r.2.get p = if p = normalForm path then some res else router.get p)

theorem get_sub {res : R} {tail : Path} {o : Option (Router R)} {r : Bool × Router R}
    (h : AddSpec res tail (o.getD .zero) r) :
    (r.1 = false ∧ o = some r.2 ∧ ((o.bind (Router.get (normalForm tail))).isSome)) ∨
    (r.1 = true ∧ o.bind (Router.get (normalForm tail)) = none ∧
      ∀ p, r.2.get p = if p = normalForm tail then some res else o.bind (Router.get p)) := by
  cases o with
  | some sub =>
    rcases h with ⟨h1, h2, h3⟩ | h
    · exact .inl ⟨h1, congrArg some h2.symm, h3⟩
    · exact .inr h
  | none =>
    rcases h with ⟨-, -, h3⟩ | ⟨h1, -, h3⟩
    · rw [show (Option.getD none Router.zero : Router R) = Router.zero from rfl,
        Router.get_zero] at h3
      cases h3
    · refine .inr ⟨h1, rfl, fun p => (h3 p).trans ?_⟩
      rw [show (Option.getD none Router.zero : Router R) = Router.zero from rfl, Router.get_zero]
      rfl

/-- A pattern added behind a constant, when the other constants are as they were. -/
theorem Router.get_consts {res : R} {tail : Path} {head : CStr} {router sub : Router R}
    {consts : List (CStr × Router R)}
    (hfind : ∀ k, findConst k consts = if k = head then some sub else findConst k router.consts)
    (hsub : ∀ p, sub.get p = if p = normalForm tail then some res
      else (findConst head router.consts).bind (Router.get p)) (p : List (Token CStr)) :
    Router.get p { router with consts := consts } =
      if p = .const head :: normalForm tail then some res else router.get p := by
  match p with
  | [] => rfl
  | [.star] => rfl
  | .star :: _ :: _ => rfl
  | .wildcard :: _ => rfl
  | .const k :: p =>
    rw [Router.get, Router.get]
    dsimp only
    rw [hfind k]
    by_cases hk : k = head
    · subst hk
      rw [if_pos rfl]
      simpa using hsub p
    · simp [hk]

/-- **`router_add`** adds the pattern of the path, or finds it there and changes nothing. -/
theorem routerAdd_spec (res : R) (path : Path) (router : Router R) :
    AddSpec res path router (routerAdd res path router) := by
  induction path generalizing router with
  | nil =>
    unfold routerAdd
    rcases he : router.exact with _ | old
    · refine .inr ⟨rfl, he, fun p => ?_⟩
      match p with
      | [] => rfl
      | [.star] => rfl
      | .star :: _ :: _ => rfl
      | .wildcard :: _ => rfl
      | .const _ :: _ => rfl
    · refine .inl ⟨rfl, rfl, ?_⟩
      rw [normalForm, Router.get, he]
      rfl
  | cons head tail ih =>
    unfold routerAdd AddSpec normalForm
    rcases pathTokenType head with _ | _ | _
    · -- a star
      rcases hs : router.star with _ | old
      · refine .inr ⟨rfl, hs, fun p => ?_⟩
        match p with
        | [] => rfl
        | [.star] => rfl
        | .star :: _ :: _ => rfl
        | .wildcard :: _ => rfl
        | .const _ :: _ => rfl
      · refine .inl ⟨rfl, rfl, ?_⟩
        dsimp only
        rw [Router.get, hs]
        rfl
    · -- a wildcard
      rcases get_sub (ih (router.wildcards.getD .zero)) with ⟨h1, h2, h3⟩ | ⟨h1, h2, h3⟩
      · refine .inl ⟨h1, ?_, h3⟩
        dsimp only
        rw [← h2]
        exact router.eta
      · refine .inr ⟨h1, h2, fun p => ?_⟩
        match p with
        | [] => rfl
        | [.star] => rfl
        | .star :: _ :: _ => rfl
        | .const _ :: _ => rfl
        | .wildcard :: p =>
          refine (h3 p).trans ?_
          simp [Router.get]
    · -- a constant
      rcases hf : findConst head router.consts with _ | sub
      · rcases get_sub (o := none) (ih .zero) with ⟨-, h2, -⟩ | ⟨h1, -, h3⟩
        · cases h2
        · refine .inr ⟨h1, ?_, Router.get_consts (findConst_append hf) fun p => ?_⟩
          · rw [Router.get, hf]
            rfl
          · rw [hf]
            exact h3 p
      · rcases get_sub (o := some sub) (ih sub) with ⟨h1, h2, h3⟩ | ⟨h1, h2, h3⟩
        · refine .inl ⟨h1, ?_, ?_⟩
          · dsimp only
            rw [setConst_self (hf.trans h2)]
            exact router.eta
          · rw [Router.get, hf]
            exact h3
        · refine .inr ⟨h1, ?_, Router.get_consts (findConst_set hf) fun p => ?_⟩
          · rw [Router.get, hf]
            exact h2
          · rw [hf]
            exact h3 p

/-! ### Calls -/

/-- The dictionary holds what has been accepted, each pattern once. -/
structure Holds (accepted : List (Path × R)) (router : Router R) : Prop where
  get : ∀ p res, router.get p = some res ↔ ∃ a ∈ accepted, normalForm a.1 = p ∧ a.2 = res
  inj : ∀ a ∈ accepted, ∀ b ∈ accepted, normalForm a.1 = normalForm b.1 → a = b

theorem holds_zero : Holds [] (Router.zero : Router R) where
  get p res := by simp [Router.get_zero]
  inj a ha := absurd ha List.not_mem_nil

theorem Holds.add {accepted : List (Path × R)} {router : Router R} (h : Holds accepted router)
    (path : Path) (res : R) :
    ((routerAdd res path router).1 = false ∧ (routerAdd res path router).2 = router ∧
      ∃ a ∈ accepted, normalForm a.1 = normalForm path) ∨
    ((routerAdd res path router).1 = true ∧ (∀ a ∈ accepted, normalForm a.1 ≠ normalForm path) ∧
      Holds (accepted ++ [(path, res)]) (routerAdd res path router).2) := by
  rcases routerAdd_spec res path router with ⟨h1, h2, h3⟩ | ⟨h1, h2, h3⟩
  · obtain ⟨old, hold⟩ := Option.isSome_iff_exists.mp h3
    obtain ⟨a, ha, hn, -⟩ := (h.get _ _).mp hold
    exact .inl ⟨h1, h2, a, ha, hn⟩
  · have hnew : ∀ a ∈ accepted, normalForm a.1 ≠ normalForm path := fun a ha hn => by
      rw [(h.get _ a.2).mpr ⟨a, ha, hn, rfl⟩] at h2
      cases h2
    refine .inr ⟨h1, hnew, fun p x => ?_, fun a ha b hb hn => ?_⟩
    · rw [h3]
      constructor
      · intro hp
        split_ifs at hp with hpn
        · cases hp
          exact ⟨(path, res), by simp, hpn.symm, rfl⟩
        · obtain ⟨a, ha, hn⟩ := (h.get p x).mp hp
          exact ⟨a, List.mem_append_left _ ha, hn⟩
      · rintro ⟨a, ha, rfl, rfl⟩
        rcases List.mem_append.mp ha with ha | ha
        · rw [if_neg (hnew a ha)]
          exact (h.get _ _).mpr ⟨a, ha, rfl, rfl⟩
        · rw [List.mem_singleton.mp ha, if_pos rfl]
    · rcases List.mem_append.mp ha with ha | ha <;> rcases List.mem_append.mp hb with hb | hb
      · exact h.inj a ha b hb hn
      · rw [List.mem_singleton.mp hb] at hn
        exact absurd hn (hnew a ha)
      · rw [List.mem_singleton.mp ha] at hn
        exact absurd hn.symm (hnew b hb)
      · rw [List.mem_singleton.mp ha, List.mem_singleton.mp hb]

/-- **A sequence of calls.** -/
theorem Holds.addAll {calls : List (Path × R)} : ∀ {accepted : List (Path × R)} {router : Router R},
    Holds accepted router →
    Holds (accepted ++ (Routing.addAll calls router).1) (Routing.addAll calls router).2 := by
  induction calls with
  | nil => exact fun h => by simpa [Routing.addAll] using h
  | cons call calls ih =>
    intro accepted router h
    rcases h.add call.1 call.2 with ⟨h1, h2, -⟩ | ⟨h1, -, h2⟩
    · have hrun : Routing.addAll (call :: calls) router = Routing.addAll calls router := by
        simp [Routing.addAll, h1, h2]
      rw [hrun]
      exact ih h
    · have hrun : Routing.addAll (call :: calls) router =
          (call :: (Routing.addAll calls (routerAdd call.2 call.1 router).2).1,
            (Routing.addAll calls (routerAdd call.2 call.1 router).2).2) := by
        simp [Routing.addAll, h1]
      rw [hrun]
      have hrest := ih h2
      rwa [List.append_assoc] at hrest

/-- **The router matches patterns**: a path is refused if its pattern has been accepted, which changes
no result; a request gets the resource of the least of the accepted patterns that match it. -/
theorem router_matches (calls : List (Path × R)) :
    (∀ path res, (routerAdd res path (addAll calls .zero).2).1 = false ↔
      ∃ a ∈ (addAll calls .zero).1, normalForm a.1 = normalForm path) ∧
    (∀ path res, (routerAdd res path (addAll calls .zero).2).1 = false → ∀ later request,
      routerRoute (addAll later (routerAdd res path (addAll calls .zero).2).2).2 request =
        routerRoute (addAll later (addAll calls .zero).2).2 request) ∧
    (∀ request, routerRoute (addAll calls .zero).2 request ≠ none ↔
      ∃ a ∈ (addAll calls .zero).1, pathMatches a.1 request) ∧
    ∀ request res, routerRoute (addAll calls .zero).2 request = some res →
      ∃ a ∈ (addAll calls .zero).1, a.2 = res ∧ pathMatches a.1 request ∧
        ∀ b ∈ (addAll calls .zero).1, pathMatches b.1 request →
          b = a ∨ kinds (normalForm a.1) < kinds (normalForm b.1) := by
  have h : Holds (addAll calls .zero).1 (addAll calls .zero).2 := (holds_zero (R := R)).addAll
  generalize (addAll calls .zero).1 = accepted at h
  generalize (addAll calls .zero).2 = router at h
  have hfinds := routerRoute_finds router
  have hmatch : ∀ {a : Path × R} {request}, Matches (normalForm a.1) request ↔
      pathMatches a.1 request := (pathMatches_iff _ _).symm
  refine ⟨fun path res => ?_, fun path res hadd later request => ?_, fun request => ?_,
    fun request res hroute => ?_⟩
  · rcases h.add path res with ⟨h1, -, h3⟩ | ⟨h1, h2, -⟩
    · exact ⟨fun _ => h3, fun _ => h1⟩
    · rw [h1]
      exact ⟨nofun, fun ⟨a, ha, hn⟩ => absurd hn (h2 a ha)⟩
  · rcases h.add path res with ⟨-, h2, -⟩ | ⟨h1, -, -⟩
    · rw [h2]
    · rw [h1] at hadd
      cases hadd
  · have hf := hfinds request
    constructor
    · intro hne
      obtain ⟨res, hres⟩ := Option.ne_none_iff_exists'.mp hne
      rw [hres] at hf
      obtain ⟨p, hp, hm, -⟩ := hf
      obtain ⟨a, ha, rfl, -⟩ := (h.get p res).mp hp
      exact ⟨a, ha, hmatch.mp hm⟩
    · rintro ⟨a, ha, hm⟩ hnone
      rw [hnone] at hf
      exact hf _ a.2 ((h.get _ _).mpr ⟨a, ha, rfl, rfl⟩) (hmatch.mpr hm)
  · have hf := hfinds request
    rw [hroute] at hf
    obtain ⟨p, hp, hm, hleast⟩ := hf
    obtain ⟨a, ha, rfl, hres⟩ := (h.get p res).mp hp
    refine ⟨a, ha, hres, hmatch.mp hm, fun b hb hbm => ?_⟩
    have hle := hleast _ b.2 ((h.get _ _).mpr ⟨b, hb, rfl, rfl⟩) (hmatch.mpr hbm)
    rcases hle.eq_or_lt with heq | hlt
    · refine .inl (h.inj b hb a ha ?_)
      exact (eq_of_kinds (normal_normalForm _) (normal_normalForm _) hm (hmatch.mpr hbm) heq).symm
    · exact .inr hlt

end Ops

end Optics.Utils.Routing
