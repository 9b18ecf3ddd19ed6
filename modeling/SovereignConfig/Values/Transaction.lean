/-
The shape every mutation has as a transaction: it checks its request, asks for its path locks along
a plan that its paths alone fix, works, and commits as the last thing that can fail.
-/
import SovereignConfig.Values.Returns

namespace SovereignConfig.Values

open Lib Text List

variable {env : Env} {db db' : Db} {α β : Type}

def path_locks : Except PathError ConfigPath → List (LockRequest Text)
  | .ok path => mutation_locks path
  | .error _ => []

def Mutation.locks : Mutation → List (LockRequest Text)
  | put_value path _ => path_locks (ConfigPath.parse_operation path)
  | replace_sub_tree path _ => path_locks (ConfigPath.parse_selection path)
  | delete_values path recurse =>
    path_locks (if recurse then ConfigPath.parse_selection path
      else ConfigPath.parse_operation path)
  | add_value_path paths =>
    match ConfigPath.parse_operation paths.source, ConfigPath.parse_operation paths.new_path with
    | .ok source, .ok new_path =>
      if source.fold = new_path.fold then []
      else
        mutation_locks (alias_order source new_path).1 ++
          mutation_locks (alias_order source new_path).2
    | _, _ => []

def Request.locks : Request → List (LockRequest Text)
  | lock_path key exclusive => [⟨key, exclusive⟩]
  | _ => []

/-! ## The shape -/

/-- A call that asks for the locks of `plan`, all of them if it returns a value, and after
whose commit nothing can fail. -/
def Transaction : Service α → List (LockRequest Text) → Prop
  | .done (.ok _), plan => plan = []
  | .done (.error _), _ => True
  | .ask .commit k, plan => plan = [] ∧ ∃ a, ∀ r, k r = .done (r.map fun _ => a)
  | .ask q k, plan => ∃ later, plan = q.locks ++ later ∧ ∀ a, Transaction (k a) later

def Request.inner : Request → Bool
  | commit => false
  | lock_path .. => false
  | _ => true

abbrev Inner (x : Service α) : Prop := x.Asks (fun q => q.inner = true)

def Request.quiet : Request → Bool
  | commit => false
  | lock_path .. => false
  | insert_events .. => false
  | _ => true

abbrev Quiet (x : Service α) : Prop := x.Asks (fun q => q.quiet = true)

variable {x : Service α} {q : Request} {plan : List (LockRequest Text)} {f : α → Service β}
  {e : Status}

theorem Quiet.inner (h : Quiet x) : Inner x := by
  refine h.imp fun q hq => ?_
  cases q with
  | commit => exact hq
  | lock_path => exact hq
  | _ => rfl

theorem Request.inner_locks (h : q.inner = true) : q.locks = [] := by
  cases q with
  | lock_path => exact absurd h Bool.false_ne_true
  | _ => rfl

theorem transaction_ask (hq : q ≠ .commit) {k : q.Answer → Service α} :
    Transaction (.ask q k) plan ↔ ∃ later, plan = q.locks ++ later ∧ ∀ a, Transaction (k a) later := by
  cases q with
  | commit => exact absurd rfl hq
  | _ => exact Iff.rfl

theorem Transaction.bind (hx : Inner x) (hf : ∀ a, Transaction (f a) plan) :
    Transaction (x.bind f) plan := by
  induction x with
  | done r =>
    cases r with
    | ok a => exact hf a
    | error e => trivial
  | ask q k ih =>
    have hq : q ≠ .commit := by
      rintro rfl
      exact absurd hx.1 (by decide)
    refine (transaction_ask hq).mpr ⟨plan, ?_, fun a => ih a (hx.2 a)⟩
    rw [q.inner_locks hx.1, nil_append]

theorem Transaction.lift {r : Except Status α} (hf : ∀ a, r = .ok a → Transaction (f a) plan) :
    Transaction ((Call.lift r).bind f) plan := by
  cases r with
  | ok a => exact hf a rfl
  | error e => trivial

theorem Transaction.lock {wanted : List (LockRequest Text)} {f : Unit → Service β}
    {rest : List (LockRequest Text)} (hf : Transaction (f ()) rest) :
    Transaction ((wanted.forM fun lock => store.lock_path lock.key lock.exclusive).bind f)
      (wanted ++ rest) := by
  induction wanted with
  | nil => exact hf
  | cons lock wanted ih =>
    refine (transaction_ask (by simp)).mpr ⟨wanted ++ rest, rfl, fun a => ?_⟩
    cases a with
    | ok u => exact ih
    | error e => trivial

theorem transaction_commit {a : α} :
    Transaction (store.commit.bind fun _ => .done (.ok a)) [] :=
  ⟨rfl, a, fun r => by cases r <;> rfl⟩

theorem Transaction.map {f : α → β} (hx : Transaction x plan) : Transaction (f <$> x) plan := by
  show Transaction (x.bind fun a => .done (.ok (f a))) plan
  induction x generalizing plan with
  | done r =>
    cases r with
    | ok a => exact hx
    | error e => trivial
  | ask q k ih =>
    by_cases hq : q = .commit
    · subst hq
      obtain ⟨hpla, a, ha⟩ := hx
      refine ⟨hpla, f a, fun r => ?_⟩
      show (k r).bind (fun a => .done (.ok (f a))) = _
      rw [ha]
      cases r <;> rfl
    · obtain ⟨later, hpla, hk⟩ := (transaction_ask hq).mp hx
      exact (transaction_ask hq).mpr ⟨later, hpla, fun a => ih a (hk a)⟩

/-! ## The operations -/

theorem inner_query (h : q.inner = true) : Inner (query q) :=
  ⟨h, fun _ => trivial⟩

theorem quiet_query (h : q.quiet = true) : Quiet (query q) :=
  ⟨h, fun _ => trivial⟩

theorem quiet_prune_orphan_contents (ids : List ℕ) : Quiet (prune_orphan_contents ids) := by
  unfold prune_orphan_contents
  split
  · trivial
  · exact (Call.Asks.forM (fun _ => quiet_query rfl) _).bind fun _ => quiet_query rfl

theorem quiet_stored_representation (id : ℕ) (classification : Classification) (value : Text) :
    Quiet (stored_representation id classification value) := by
  unfold stored_representation
  split
  · exact quiet_query rfl
  · trivial

theorem quiet_write_value (path : ConfigPath) (existing : Option PathContentClassRow)
    (value : Text) (classification : Classification) (now : OffsetDateTime) :
    Quiet (write_value path existing value classification now) := by
  cases existing with
  | some existing =>
    simp only [write_value, overwrite_existing]
    split
    · trivial
    · exact (quiet_stored_representation _ _ _).bind fun _ => quiet_query rfl
  | none =>
    refine (quiet_query rfl).bind fun collides => ?_
    cases collides with
    | true => trivial
    | false =>
      exact (quiet_query rfl).bind fun _ => (quiet_stored_representation _ _ _).bind fun _ =>
        (quiet_query rfl).bind fun _ => (quiet_query rfl).bind fun _ => trivial

theorem quiet_resolve_plain_writes (values : List SubTreeEntry) :
    Quiet (resolve_plain_writes values) := by
  refine Call.Asks.foldlM (fun writes value => ?_) _ _
  rcases value with ⟨path, _ | _ | _⟩
  · trivial
  · exact (quiet_query rfl).bind fun _ => trivial
  · trivial

theorem quiet_update_shared (now : OffsetDateTime) (shared : List (ℕ × Text)) :
    Quiet (update_shared now shared) := by
  refine Call.Asks.foldlM (fun previous write => ?_) _ _
  exact (quiet_query rfl).bind fun _ => trivial

theorem quiet_insert_fresh (now : OffsetDateTime) (displays : Displays)
    (fresh : List (Text × Text)) : Quiet (insert_fresh now displays fresh) :=
  Call.Asks.forM (fun _ => (quiet_query rfl).bind fun _ => (quiet_query rfl).bind fun _ =>
    quiet_query rfl) _

theorem transaction_put_value (context : CallContext) (path : Text)
    (written : Option PutContent) :
    Transaction (put_value context path written) (path_locks (ConfigPath.parse_operation path)) := by
  refine .lift fun p hp => .lift fun content _ => ?_
  obtain ⟨value, classification⟩ := content
  rw [show ConfigPath.parse_operation path = .ok p from (authorize_ok hp).1]
  simp only
  split
  · trivial
  · rw [path_locks, ← append_nil (mutation_locks p)]
    exact .lift fun _ _ => .bind (inner_query rfl) fun _ => .lock <|
      .bind (inner_query rfl) fun _ => .bind (inner_query rfl) fun _ =>
      .bind (quiet_write_value _ _ _ _ _).inner fun _ => .bind (inner_query rfl) fun _ =>
      transaction_commit

theorem transaction_replace_sub_tree (context : CallContext) (path : Text)
    (values : List SubTreeEntry) :
    Transaction (replace_sub_tree context path values)
      (path_locks (ConfigPath.parse_selection path)) := by
  refine .lift fun p hp => ?_
  rw [show ConfigPath.parse_selection path = .ok p from (authorize_ok hp).1, path_locks,
    ← append_nil (mutation_locks p)]
  exact .lift fun _ _ => .lift fun _ _ => .bind (inner_query rfl) fun _ => .lock <|
    .bind (inner_query rfl) fun _ => .lift fun _ _ => .bind (inner_query rfl) fun _ =>
    .bind (inner_query rfl) fun _ => .bind (quiet_prune_orphan_contents _).inner fun _ =>
    .bind (quiet_resolve_plain_writes _).inner fun _ =>
    .bind (quiet_update_shared _ _).inner fun _ => .bind (quiet_insert_fresh _ _ _).inner fun _ =>
    .bind (inner_query rfl) fun _ => transaction_commit

theorem transaction_delete_values (context : CallContext) (path : Text) (recurse : Bool) :
    Transaction (delete_values context path recurse)
      (path_locks (if recurse then ConfigPath.parse_selection path
        else ConfigPath.parse_operation path)) := by
  refine .lift fun p hp => ?_
  rw [(authorize_ok hp).1, path_locks, ← append_nil (mutation_locks p)]
  refine .lift fun _ _ => .bind (inner_query rfl) fun _ => .lock <|
    .bind (inner_query rfl) fun deleted => ?_
  split
  · trivial
  · exact .bind (quiet_prune_orphan_contents _).inner fun _ => .bind (inner_query rfl) fun _ =>
      .bind (inner_query rfl) fun _ => transaction_commit

theorem transaction_add_value_path (context : CallContext) (paths : AliasPaths) :
    Transaction (add_value_path context paths) (Mutation.add_value_path paths).locks := by
  refine .lift fun names hnam => ?_
  obtain ⟨actor, source, new_path⟩ := names
  obtain ⟨hsou, hnew, hne⟩ := alias_paths_ok hnam
  rw [Mutation.locks, hsou, hnew]
  simp only [if_neg hne]
  rw [← append_nil (mutation_locks (alias_order source new_path).2)]
  refine .bind (inner_query rfl) fun _ => .lock <| .lock <|
    .bind (inner_query rfl) fun found => ?_
  cases found with
  | none => trivial
  | some id =>
    refine .bind (inner_query rfl) fun occupied => ?_
    cases occupied with
    | true => trivial
    | false =>
      refine .bind (inner_query rfl) fun collides => ?_
      cases collides with
      | true => trivial
      | false =>
        exact .bind (inner_query rfl) fun _ => .bind (inner_query rfl) fun _ =>
          .bind (inner_query rfl) fun _ => transaction_commit

theorem mutation_transaction (context : CallContext) (mutation : Mutation) :
    Transaction (mutation.call context) mutation.locks := by
  cases mutation with
  | put_value path written => exact (transaction_put_value context path written).map
  | replace_sub_tree path values => exact (transaction_replace_sub_tree context path values).map
  | delete_values path recurse => exact (transaction_delete_values context path recurse).map
  | add_value_path paths => exact (transaction_add_value_path context paths).map

/-! ## What follows from it -/

theorem exec_committed (hq : q ≠ .commit) (db : Db) :
    (exec env q db).2.committed = db.committed := by
  have happ : ∀ {α : Type} (a : α) (o : Option Tables),
      (db.apply a o).2.committed = db.committed := by
    intro α a o
    cases o <;> rfl
  cases q with
  | commit => exact absurd rfl hq
  | update_content id stored classification now =>
    rw [exec]
    cases db.working.content_row id with
    | none => rfl
    | some row => exact happ _ _
  | update_plain_content id value now =>
    rw [exec]
    cases db.working.content_row id with
    | none => rfl
    | some row => exact happ _ _
  | encrypt id classification value =>
    rw [exec]
    cases env.encrypt id classification value <;> rfl
  | insert_content => exact happ _ _
  | insert_path => exact happ _ _
  | _ => rfl

theorem Transaction.failed (hx : Transaction x plan) (h : x.run (exec env) db = (.error e, db')) :
    db'.committed = db.committed := by
  induction x generalizing db plan with
  | done r =>
    obtain ⟨_, rfl⟩ := Prod.mk.inj h
    rfl
  | ask q k ih =>
    by_cases hq : q = .commit
    · subst hq
      obtain ⟨_, a, ha⟩ := hx
      rw [Call.run_ask, show (exec env .commit db).1 = .ok () from rfl, ha] at h
      exact absurd (Prod.mk.inj h).1 (by simp [Except.map])
    · obtain ⟨later, _, hk⟩ := (transaction_ask hq).mp hx
      rw [ih _ (hk _) h, exec_committed hq]

theorem failed_mutation_changes_nothing {context : CallContext} {mutation : Mutation}
    (h : perform env (mutation.call context) db = (.error e, db')) :
    db'.committed = db.committed := by
  obtain ⟨hres, hdb⟩ := Prod.mk.inj h
  have hrun : (mutation.call context).run (exec env) db =
      (.error e, ((mutation.call context).run (exec env) db).2) := Prod.ext hres rfl
  have hkep := (mutation_transaction context mutation).failed hrun
  rw [← hdb]
  exact hkep

def locks_asked (trace : List ((q : Request) × q.Answer)) : List (LockRequest Text) :=
  trace.flatMap fun asked => asked.1.locks

/-- **The locks a mutation asks for are those of its plan, in the plan's order.** -/
theorem mutation_locks_asked {W : Type} {serve : (q : Request) → W → q.Answer → W → Prop}
    {between : W → W → Prop} {context : CallContext} {mutation : Mutation} {w w' : W}
    {trace : List ((q : Request) × q.Answer)} {result : Except Status Reply}
    (h : Call.Runs serve between (mutation.call context) w trace result w') :
    locks_asked trace <+: mutation.locks ∧
      ∀ reply, result = .ok reply → locks_asked trace = mutation.locks := by
  have key : ∀ {x : Service Reply} {plan : List (LockRequest Text)}, Transaction x plan →
      Call.Runs serve between x w trace result w' →
      locks_asked trace <+: plan ∧ ∀ reply, result = .ok reply → locks_asked trace = plan := by
    intro x plan hx hrun
    clear h
    induction hrun generalizing plan with
    | @done r _ _ _ =>
      cases r with
      | ok a => exact ⟨ nil_prefix, fun _ _ => hx.symm⟩
      | error e => exact ⟨ nil_prefix, fun _ hr => absurd hr (by simp)⟩
    | @ask q k a _ _ _ _ tr r _ _ hres ih =>
      by_cases hq : q = .commit
      · -- Nothing is asked after the commit.
        subst hq
        obtain ⟨hpla, b, hb⟩ := hx
        rw [hb] at hres
        cases hres with
        | done _ => exact ⟨ nil_prefix, fun _ _ => hpla.symm⟩
      · obtain ⟨later, hpla, hk⟩ := (transaction_ask hq).mp hx
        obtain ⟨hpre, hall⟩ := ih (hk a)
        rw [hpla]
        exact ⟨(prefix_append_right_inj _).mpr hpre,
          fun reply hr => congrArg (q.locks ++ ·) (hall reply hr)⟩
  exact key (mutation_transaction context mutation) h

def deleting_a : Service Reply := (Mutation.delete_values "/a".toList false).call operator

/-- A deletion at `/a` that loses its second lock has asked for both, in their order. -/
theorem locks_of_a_asked : ∃ trace e,
    Call.Runs (fun _ (w : Unit) _ w' => w = w') Eq deleting_a () trace (.error e) () ∧
    locks_asked trace = [⟨root_text, false⟩, ⟨"/a".toList, true⟩] ∧
    locks_asked trace <+: (Mutation.delete_values "/a".toList false).locks := by
  have hrun : Call.Runs (fun _ (w : Unit) _ w' => w = w') Eq deleting_a ()
      [⟨.begin, .ok ()⟩, ⟨.lock_path root_text false, .ok ()⟩,
        ⟨.lock_path "/a".toList true, .error (.unavailable "")⟩] (.error (.unavailable "")) () :=
    .ask rfl rfl (.ask rfl rfl (.ask rfl rfl (.done rfl)))
  exact ⟨_, _, hrun, rfl, (mutation_locks_asked hrun).1⟩

end SovereignConfig.Values
