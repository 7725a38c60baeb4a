import NovaBase.Auth.Service

/-!
# Which sessions are valid

A history of calls says which user a token belongs to: the user it was issued
to, until the token is revoked, the user is disabled, or the role or password of
the user changes. The service finds exactly this owner, as long as no token is
drawn twice.
-/

namespace NovaBase.Auth

open Lib

/-- One call, with what the hashing library or the random source gives to it. -/
inductive AuthCall
  | createUser (username password : String) (role : Role) (passwordHash : Result String)
  | authenticate (username password : String) (randomToken : Result String)
  | authorize (token : String) (permission : Permission)
  | revoke (token : String)
  | setRole (username : String) (role : Role)
  | setEnabled (username : String) (enabled : Bool)
  | changePassword (username password : String) (passwordHash : Result String)

/-- What a call answers. -/
inductive Answer
  | done
  | token (value : String)
  | principal (value : Principal)

/-- A call and its answer. -/
abbrev Event := AuthCall × Result Answer

/-- The event ends the session of a token of a user. -/
def Event.Ends (token user : String) : Event → Prop
  | (.revoke revoked, .ok _) => revoked = token
  | (.setRole username _, .ok _) => username = user
  | (.changePassword username _ _, .ok _) => username = user
  | (.setEnabled username enabled, .ok _) => username = user ∧ enabled = false
  | _ => False

/-- The event issues a token to a user. -/
def Event.Issues (token user : String) : Event → Prop
  | (.authenticate username _ _, .ok (.token issued)) => username = user ∧ issued = token
  | _ => False

/-- A token was issued to a user, and nothing has ended its session since. -/
def Valid (history : List Event) (token user : String) : Prop :=
  ∃ before event after, history = before ++ event :: after ∧ event.Issues token user ∧
    ∀ later ∈ after, ¬later.Ends token user

/-- The role that an event gives to a user. -/
def Event.grants (user : String) : Event → Option Role
  | (.createUser username _ role _, .ok _) => if username = user then some role else none
  | (.setRole username role, .ok _) => if username = user then some role else none
  | _ => none

/-- The role a user was given last. -/
def currentRole (history : List Event) (user : String) : Option Role :=
  history.foldl (fun role event => (event.grants user).or role) none

/-- The token that an event issues. -/
def Event.issued : Event → Option String
  | (.authenticate _ _ _, .ok (.token issued)) => some issued
  | _ => none

/-- The tokens that were issued, in order. -/
def issuedTokens (history : List Event) : List String := history.filterMap Event.issued

/-- The user that a call is about. -/
def AuthCall.subject (service : AuthService) : AuthCall → Option String
  | .createUser username _ _ _ | .authenticate username _ _ | .setRole username _
  | .setEnabled username _ | .changePassword username _ _ => some username
  | .authorize token _ | .revoke token => service.sessions.get token

namespace AuthService

variable [CharacterTables] [PasswordHashing]

/-- The answer and the service after a call that changes the service. -/
def changed (service : AuthService) : Result AuthService → Result Answer × AuthService
  | .ok next => (.ok .done, next)
  | .error cause => (.error cause, service)

/-- One call. -/
def perform (service : AuthService) : AuthCall → Result Answer × AuthService
  | .createUser username password role passwordHash =>
      service.changed (service.createUser username password role passwordHash)
  | .authenticate username password randomToken =>
      match service.authenticate username password randomToken with
      | .ok (token, next) => (.ok (.token token), next)
      | .error cause => (.error cause, service)
  | .authorize token permission => (.principal <$> service.authorize token permission, service)
  | .revoke token => (.ok .done, service.revoke token)
  | .setRole username role => service.changed (service.setRole username role)
  | .setEnabled username enabled => service.changed (service.setEnabled username enabled)
  | .changePassword username password passwordHash =>
      service.changed (service.changePassword username password passwordHash)

/-- The history of calls and the service after them. -/
def record (calls : List AuthCall) (service : AuthService) : List Event × AuthService :=
  calls.foldl (fun state call =>
    let (answer, next) := state.2.perform call
    (state.1 ++ [(call, answer)], next)) ([], service)

end AuthService

variable {history : List Event} {event : Event} {token user : String}

/-- A token is valid after an event if the event issues it, or leaves it valid. -/
theorem valid_concat : Valid (history ++ [event]) token user ↔
    event.Issues token user ∨ Valid history token user ∧ ¬event.Ends token user := by
  constructor
  · rintro ⟨before, issue, after, hsplit, hissues, hnever⟩
    rcases List.eq_nil_or_concat after with rfl | ⟨kept, last, hafter⟩
    · obtain ⟨-, hlast⟩ := List.append_inj' hsplit rfl
      cases hlast
      exact .inl hissues
    · rw [List.concat_eq_append] at hafter
      subst hafter
      have hshape : history ++ [event] = (before ++ issue :: kept) ++ [last] := by
        rw [hsplit]
        simp
      obtain ⟨hhistory, hlast⟩ := List.append_inj' hshape rfl
      cases hlast
      refine .inr ⟨⟨before, issue, kept, hhistory, hissues, fun later hlater => ?_⟩, ?_⟩
      · exact hnever later (List.mem_append_left _ hlater)
      · exact hnever event (by simp)
  · rintro (hissues | ⟨⟨before, issue, after, rfl, hissues, hnever⟩, hend⟩)
    · exact ⟨history, event, [], rfl, hissues, by simp⟩
    · refine ⟨before, issue, after ++ [event], by simp, hissues, ?_⟩
      intro later hlater
      rcases List.mem_append.mp hlater with hold | hnew
      · exact hnever later hold
      · rwa [List.mem_singleton.mp hnew]

theorem not_valid_nil : ¬Valid [] token user := by
  rintro ⟨before, event, after, hsplit, -⟩
  simp at hsplit

theorem currentRole_concat : currentRole (history ++ [event]) user =
    (event.grants user).or (currentRole history user) := by
  simp [currentRole]

theorem issuedTokens_concat : issuedTokens (history ++ [event]) =
    issuedTokens history ++ event.issued.toList := by
  rw [issuedTokens, List.filterMap_append]
  cases h : event.issued <;> simp [issuedTokens, h]

/-- A valid token was issued. -/
theorem mem_issuedTokens (h : Valid history token user) : token ∈ issuedTokens history := by
  obtain ⟨before, event, after, rfl, hissues, -⟩ := h
  refine List.mem_filterMap.mpr ⟨event, by simp, ?_⟩
  unfold Event.Issues at hissues
  split at hissues
  · rw [Event.issued, hissues.2]
  · exact hissues.elim

namespace AuthService

variable {service next : AuthService}

/-- The service agrees with the history on the owners of tokens and on the roles of users, and the
owner of a token is enabled. -/
structure Tracks (history : List Event) (service : AuthService) : Prop where
  sessions : ∀ token user, service.sessions.get token = some user ↔ Valid history token user
  roles : ∀ user, (service.users.get user).map UserRecord.role = currentRole history user
  enabled : ∀ {token user}, service.sessions.get token = some user →
    ∃ record, service.users.get user = some record ∧ record.enabled = true

theorem updateUser_eq_ok {username : String} {change : UserRecord → UserRecord} :
    service.updateUser username change = .ok next ↔ ∃ user,
      service.users.get username = some user ∧
        next = { service with users := service.users.insert username (change user) } := by
  rw [updateUser]
  cases service.users.get username with
  | none => simp
  | some user => simp [eq_comm]

theorem tracks_new (dummyHash : String) : Tracks [] ⟨.empty, .empty, dummyHash⟩ := by
  refine ⟨fun token user => ?_, fun user => rfl, fun {token user} hsession => ?_⟩
  · simp [not_valid_nil]
  · simp at hsession

/-- An event that does nothing leaves everything as it was. -/
theorem Tracks.idle (h : Tracks history service) (hissues : ∀ token user, ¬event.Issues token user)
    (hends : ∀ token user, ¬event.Ends token user) (hgrants : ∀ user, event.grants user = none) :
    Tracks (history ++ [event]) service := by
  refine ⟨fun token user => ?_, fun user => ?_, h.enabled⟩
  · rw [valid_concat, h.sessions]
    simp [hissues, hends]
  · rw [currentRole_concat, hgrants, h.roles, Option.none_or]

/-- A call that fails does nothing. -/
theorem Tracks.failed (h : Tracks history service) (call : AuthCall) (cause : NovaError) :
    Tracks (history ++ [(call, .error cause)]) service := by
  apply h.idle
  · intro token user hissues
    cases call <;> exact hissues
  · intro token user hends
    cases call <;> exact hends
  · intro user
    cases call <;> rfl

/-- A change of a user's record that ends the sessions of this user. -/
theorem Tracks.revokeUser (h : Tracks history service) {username : String} {record : UserRecord}
    (hissues : ∀ token user, ¬event.Issues token user)
    (hends : ∀ token user, event.Ends token user ↔ username = user)
    (hgrants : ∀ user, (event.grants user).or (currentRole history user) =
      if username = user then some record.role else currentRole history user) :
    Tracks (history ++ [event])
      (revokeUserSessions username
        { service with users := service.users.insert username record }) := by
  have hsessions : ∀ token user, (revokeUserSessions username
      { service with users := service.users.insert username record }).sessions.get token =
        some user ↔ service.sessions.get token = some user ∧ username ≠ user := by
    intro token user
    simp only [revokeUserSessions, SortedMap.get_retain, Option.bind_eq_some_iff]
    constructor
    · rintro ⟨owner, howner, hkept⟩
      split at hkept
      · cases hkept
      · rename_i hother
        cases hkept
        exact ⟨howner, fun hsame => hother hsame.symm⟩
    · rintro ⟨howner, hother⟩
      exact ⟨user, howner, if_neg fun hsame => hother hsame.symm⟩
  refine ⟨fun token user => ?_, fun user => ?_, fun {token user} hsession => ?_⟩
  · rw [hsessions, valid_concat, h.sessions, hends]
    simp [hissues]
  · rw [currentRole_concat, hgrants, ← h.roles]
    simp only [revokeUserSessions, SortedMap.get_insert]
    split <;> rfl
  · obtain ⟨hold, hother⟩ := (hsessions token user).mp hsession
    obtain ⟨found, hfound, henabled⟩ := h.enabled hold
    exact ⟨found, by simpa only [revokeUserSessions, SortedMap.get_insert, if_neg hother] using
      hfound, henabled⟩

/-- A call that changes the service succeeds, or changes nothing. -/
theorem changed_eq {result : Result AuthService} {answer : Result Answer}
    (h : service.changed result = (answer, next)) :
    result = .ok next ∧ answer = .ok .done ∨ ∃ cause, answer = .error cause ∧ next = service := by
  cases result with
  | ok found =>
      obtain ⟨rfl, rfl⟩ := Prod.mk.inj h
      exact .inl ⟨rfl, rfl⟩
  | error cause =>
      obtain ⟨rfl, rfl⟩ := Prod.mk.inj h
      exact .inr ⟨cause, rfl, rfl⟩

/-- What a call does, if it succeeds. -/
theorem createUser_eq_ok [CharacterTables] {username password : String} {role : Role}
    {passwordHash : Result String}
    (h : service.createUser username password role passwordHash = .ok next) :
    service.users.get username = none ∧ ∃ hash,
      next = { service with users := service.users.insert username ⟨hash, role, true⟩ } := by
  simp only [createUser, bind_eq_ok, require_eq_ok, pure_eq_ok, Except.ok.injEq] at h
  obtain ⟨-, -, -, -, hash, -, -, hfree, rfl⟩ := h
  exact ⟨by simpa [SortedMap.contains] using hfree, hash, rfl⟩

theorem authenticate_eq_ok [PasswordHashing] {username password issued : String}
    {randomToken : Result String}
    (h : service.authenticate username password randomToken = .ok (issued, next)) :
    (∃ user, service.users.get username = some user ∧ user.enabled = true) ∧
      next = { service with sessions := service.sessions.insert issued username } := by
  rw [authenticate] at h
  dsimp only at h
  split at h
  · cases h
  · simp only [bind_eq_ok, require_eq_ok, pure_eq_ok, Except.ok.injEq, Prod.mk.injEq] at h
    obtain ⟨-, ⟨henabled, -⟩, token, -, rfl, rfl⟩ := h
    refine ⟨?_, rfl⟩
    cases huser : service.users.get username with
    | none => simp [credentials, huser] at henabled
    | some user => exact ⟨user, rfl, by simpa [credentials, huser] using henabled⟩

/-- What authorization answers, told from the history. -/
theorem Tracks.authorize_iff (h : Tracks history service) {permission : Permission} {role : Role} :
    service.authorize token permission = .ok ⟨user, role⟩ ↔
      Valid history token user ∧ currentRole history user = some role ∧
        role.allows permission = true := by
  rw [← h.sessions, ← h.roles, authorize]
  cases hsession : service.sessions.get token with
  | none => simp
  | some owner =>
      obtain ⟨record, hrecord, henabled⟩ := h.enabled hsession
      simp only [hrecord, Option.filter_some, henabled, if_true, bind_eq_ok, require_eq_ok,
        pure_eq_ok, Except.ok.injEq, Principal.mk.injEq, Option.some.injEq]
      constructor
      · rintro ⟨-, hallows, rfl, rfl⟩
        exact ⟨rfl, by rw [hrecord, Option.map_some], hallows⟩
      · rintro ⟨rfl, hrole, hallows⟩
        rw [hrecord, Option.map_some, Option.some.injEq] at hrole
        subst hrole
        exact ⟨(), hallows, rfl, rfl⟩

/-- A call says nothing about the tokens and the role of a user that it is not about. -/
theorem Tracks.other_users (h : Tracks history service) (token : String) {call : AuthCall}
    (answer : Result Answer) (hother : call.subject service ≠ some user) :
    ¬Event.Issues token user (call, answer) ∧
      (Valid history token user → ¬Event.Ends token user (call, answer)) ∧
      Event.grants user (call, answer) = none := by
  cases answer with
  | error cause => cases call <;> exact ⟨fun hissues => hissues, fun _ hends => hends, rfl⟩
  | ok answer =>
      cases call with
      | createUser username password role passwordHash =>
          have hne : username ≠ user := fun hsame => hother (congrArg some hsame)
          exact ⟨fun hissues => hissues, fun _ hends => hends, if_neg hne⟩
      | authenticate username password randomToken =>
          have hne : username ≠ user := fun hsame => hother (congrArg some hsame)
          refine ⟨fun hissues => ?_, fun _ hends => hends, rfl⟩
          cases answer with
          | token issued => exact hne hissues.1
          | done => exact hissues
          | principal value => exact hissues
      | authorize token permission => exact ⟨fun hissues => hissues, fun _ hends => hends, rfl⟩
      | revoke revoked =>
          refine ⟨fun hissues => hissues, fun hvalid hends => hother ?_, rfl⟩
          rw [AuthCall.subject, show revoked = token from hends]
          exact (h.sessions token user).mpr hvalid
      | setRole username role =>
          have hne : username ≠ user := fun hsame => hother (congrArg some hsame)
          exact ⟨fun hissues => hissues, fun _ hends => hne hends, if_neg hne⟩
      | setEnabled username enabled =>
          have hne : username ≠ user := fun hsame => hother (congrArg some hsame)
          exact ⟨fun hissues => hissues, fun _ hends => hne hends.1, rfl⟩
      | changePassword username password passwordHash =>
          have hne : username ≠ user := fun hsame => hother (congrArg some hsame)
          exact ⟨fun hissues => hissues, fun _ hends => hne hends, rfl⟩

section Calls

variable {username password issued : String} {role : Role}
  {passwordHash randomToken : Result String}

theorem Tracks.createUser [CharacterTables] (h : Tracks history service)
    (hcreate : service.createUser username password role passwordHash = .ok next) :
    Tracks (history ++ [(.createUser username password role passwordHash, .ok .done)]) next := by
  obtain ⟨hfree, hash, rfl⟩ := createUser_eq_ok hcreate
  refine ⟨fun token user => ?_, fun user => ?_, fun {token user} hsession => ?_⟩
  · rw [valid_concat, h.sessions]
    simp [Event.Issues, Event.Ends]
  · rw [currentRole_concat, ← h.roles, SortedMap.get_insert]
    simp only [Event.grants]
    split <;> rfl
  · obtain ⟨record, hrecord, henabled⟩ := h.enabled hsession
    have hother : username ≠ user := by
      rintro rfl
      rw [hfree] at hrecord
      cases hrecord
    exact ⟨record, by simpa only [SortedMap.get_insert, if_neg hother] using hrecord, henabled⟩

/-- A login makes its user the owner of a token that nobody has had. -/
theorem Tracks.authenticate [PasswordHashing] (h : Tracks history service)
    (hlogin : service.authenticate username password randomToken = .ok (issued, next))
    (hnew : issued ∉ issuedTokens history) :
    Tracks (history ++ [(.authenticate username password randomToken, .ok (.token issued))])
      next := by
  obtain ⟨⟨record, hrecord, henabled⟩, rfl⟩ := authenticate_eq_ok hlogin
  refine ⟨fun token user => ?_, fun user => ?_, fun {token user} hsession => ?_⟩
  · rw [valid_concat, ← h.sessions, SortedMap.get_insert_eq_some, h.sessions]
    simp only [Event.Issues, Event.Ends, not_false_eq_true, and_true]
    constructor
    · rintro (⟨rfl, rfl⟩ | ⟨-, hold⟩)
      · exact .inl ⟨rfl, rfl⟩
      · exact .inr hold
    · rintro (⟨rfl, rfl⟩ | hold)
      · exact .inl ⟨rfl, rfl⟩
      · refine .inr ⟨?_, hold⟩
        rintro rfl
        exact hnew (mem_issuedTokens hold)
  · rw [currentRole_concat, h.roles]
    rfl
  · rcases SortedMap.get_insert_eq_some.mp hsession with ⟨-, rfl⟩ | ⟨-, hold⟩
    · exact ⟨record, hrecord, henabled⟩
    · exact h.enabled hold

theorem Tracks.authorize (h : Tracks history service) (bearer : String) (permission : Permission)
    (answer : Result Answer) :
    Tracks (history ++ [(.authorize bearer permission, answer)]) service := by
  apply h.idle
  · intro token user hissues
    cases answer <;> exact hissues
  · intro token user hends
    cases answer <;> exact hends
  · intro user
    cases answer <;> rfl

theorem Tracks.revoke (h : Tracks history service) (revoked : String) :
    Tracks (history ++ [(.revoke revoked, .ok .done)]) (service.revoke revoked) := by
  have hsessions : ∀ token user, (service.revoke revoked).sessions.get token = some user ↔
      service.sessions.get token = some user ∧ revoked ≠ token := by
    intro token user
    rw [AuthService.revoke, SortedMap.get_remove, Option.ite_none_left_eq_some, and_comm]
  refine ⟨fun token user => ?_, fun user => ?_, fun {token user} hsession => ?_⟩
  · rw [hsessions, valid_concat, h.sessions]
    simp [Event.Issues, Event.Ends]
  · rw [currentRole_concat, ← h.roles]
    rfl
  · exact h.enabled ((hsessions token user).mp hsession).1

theorem Tracks.setRole (h : Tracks history service)
    (hset : service.setRole username role = .ok next) :
    Tracks (history ++ [(.setRole username role, .ok .done)]) next := by
  simp only [AuthService.setRole, bind_eq_ok, updateUser_eq_ok, pure_eq_ok, Except.ok.injEq] at hset
  obtain ⟨-, ⟨record, hrecord, rfl⟩, rfl⟩ := hset
  apply h.revokeUser
  · intro token user hissues
    exact hissues
  · intro token user
    exact Iff.rfl
  · intro user
    simp only [Event.grants]
    split <;> rfl

/-- A record with the same role leaves the roles as they are. -/
theorem Tracks.same_role (h : Tracks history service) {record : UserRecord}
    (hrecord : service.users.get username = some record) (user : String) :
    (if username = user then some record.role else currentRole history user) =
      currentRole history user := by
  split
  · rename_i hsame
    subst hsame
    rw [← h.roles, hrecord]
    rfl
  · rfl

/-- Disabling a user ends the sessions of this user, and enabling one changes none. -/
theorem Tracks.setEnabled (h : Tracks history service) {enabled : Bool}
    (hset : service.setEnabled username enabled = .ok next) :
    Tracks (history ++ [(.setEnabled username enabled, .ok .done)]) next := by
  simp only [AuthService.setEnabled, bind_eq_ok, updateUser_eq_ok, pure_eq_ok,
    Except.ok.injEq] at hset
  obtain ⟨-, ⟨record, hrecord, rfl⟩, rfl⟩ := hset
  have hroles := h.same_role hrecord
  cases enabled with
  | false =>
      apply h.revokeUser
      · intro token user hissues
        exact hissues
      · intro token user
        simp [Event.Ends]
      · intro user
        rw [hroles]
        rfl
  | true =>
      refine ⟨fun token user => ?_, fun user => ?_, fun {token user} hsession => ?_⟩
      · rw [valid_concat, ← h.sessions]
        simp [Event.Issues, Event.Ends]
      · have hnone : Event.grants user (.setEnabled username true, .ok .done) = none := rfl
        rw [currentRole_concat, if_pos rfl, SortedMap.get_insert, hnone, Option.none_or,
          ← hroles user]
        split
        · rfl
        · exact h.roles user
      · rw [if_pos rfl] at hsession ⊢
        obtain ⟨found, hfound, henabled⟩ := h.enabled hsession
        rw [SortedMap.get_insert]
        split
        · exact ⟨_, rfl, rfl⟩
        · exact ⟨found, hfound, henabled⟩

theorem Tracks.changePassword (h : Tracks history service)
    (hset : service.changePassword username password passwordHash = .ok next) :
    Tracks (history ++ [(.changePassword username password passwordHash, .ok .done)]) next := by
  simp only [AuthService.changePassword, bind_eq_ok, updateUser_eq_ok, pure_eq_ok,
    Except.ok.injEq] at hset
  obtain ⟨-, -, hash, -, -, ⟨record, hrecord, rfl⟩, rfl⟩ := hset
  apply h.revokeUser
  · intro token user hissues
    exact hissues
  · intro token user
    exact Iff.rfl
  · intro user
    rw [h.same_role hrecord]
    rfl

end Calls

variable [CharacterTables] [PasswordHashing]

/-- Every call keeps the service in agreement with the history. -/
theorem Tracks.perform (h : Tracks history service) {call : AuthCall} {answer : Result Answer}
    (hcall : service.perform call = (answer, next))
    (hfresh : ∀ token, Event.issued (call, answer) = some token → token ∉ issuedTokens history) :
    Tracks (history ++ [(call, answer)]) next := by
  cases call with
  | createUser username password role passwordHash =>
      rcases changed_eq hcall with ⟨hcreate, rfl⟩ | ⟨cause, rfl, rfl⟩
      · exact h.createUser hcreate
      · exact h.failed _ cause
  | authenticate username password randomToken =>
      rw [AuthService.perform] at hcall
      split at hcall
      · rename_i issued found hissued
        obtain ⟨rfl, rfl⟩ := Prod.mk.inj hcall
        exact h.authenticate hissued (hfresh issued rfl)
      · obtain ⟨rfl, rfl⟩ := Prod.mk.inj hcall
        exact h.failed _ _
  | authorize bearer permission =>
      obtain ⟨rfl, rfl⟩ := Prod.mk.inj hcall
      exact h.authorize bearer permission _
  | revoke revoked =>
      obtain ⟨rfl, rfl⟩ := Prod.mk.inj hcall
      exact h.revoke revoked
  | setRole username role =>
      rcases changed_eq hcall with ⟨hset, rfl⟩ | ⟨cause, rfl, rfl⟩
      · exact h.setRole hset
      · exact h.failed _ cause
  | setEnabled username enabled =>
      rcases changed_eq hcall with ⟨hset, rfl⟩ | ⟨cause, rfl, rfl⟩
      · exact h.setEnabled hset
      · exact h.failed _ cause
  | changePassword username password passwordHash =>
      rcases changed_eq hcall with ⟨hset, rfl⟩ | ⟨cause, rfl, rfl⟩
      · exact h.changePassword hset
      · exact h.failed _ cause

theorem record_concat (calls : List AuthCall) (call : AuthCall) (service : AuthService) :
    record (calls ++ [call]) service =
      ((record calls service).1 ++ [(call, ((record calls service).2.perform call).1)],
        ((record calls service).2.perform call).2) := by
  rw [record, List.foldl_concat]
  rfl

/-- A service that starts empty agrees with the history of any calls that draw no token twice. -/
theorem tracks_record (dummyHash : String) (calls : List AuthCall)
    (hfresh : (issuedTokens (record calls ⟨.empty, .empty, dummyHash⟩).1).Nodup) :
    Tracks (record calls ⟨.empty, .empty, dummyHash⟩).1
      (record calls ⟨.empty, .empty, dummyHash⟩).2 := by
  induction calls using List.reverseRecOn with
  | nil => exact tracks_new dummyHash
  | append_singleton calls call ih =>
      rw [record_concat] at hfresh ⊢
      rw [issuedTokens_concat] at hfresh
      obtain ⟨hbefore, -, hdisjoint⟩ := List.nodup_append.mp hfresh
      apply (ih hbefore).perform rfl
      intro token hissued hold
      exact hdisjoint token hold token (Option.mem_toList.mpr hissued) rfl

end AuthService

open AuthService

section Documented

variable [CharacterTables] [PasswordHashing]

/-- Sessions are exactly as valid as documented. After any calls of a new service that draw no
token twice, a token is authorized for a user exactly when it was issued to that user and nothing
has ended its session since, with the role that the user was given last, if that role grants the
permission. A further call changes nothing about the tokens of users that it is not about. -/
theorem sessions_exactly_valid (dummyHash : String) (calls : List AuthCall)
    (hfresh : (issuedTokens (record calls ⟨.empty, .empty, dummyHash⟩).1).Nodup) :
    let history := (record calls ⟨.empty, .empty, dummyHash⟩).1
    let service := (record calls ⟨.empty, .empty, dummyHash⟩).2
    (∀ token permission username role, service.authorize token permission = .ok ⟨username, role⟩ ↔
      Valid history token username ∧ currentRole history username = some role ∧
        role.allows permission = true) ∧
    ∀ call answer next, service.perform call = (answer, next) →
      (∀ token, Event.issued (call, answer) = some token → token ∉ issuedTokens history) →
      ∀ username, call.subject service ≠ some username → ∀ token permission role,
        (next.authorize token permission = .ok ⟨username, role⟩ ↔
          service.authorize token permission = .ok ⟨username, role⟩) := by
  intro history service
  have htracks : Tracks history service := tracks_record dummyHash calls hfresh
  constructor
  · intro token permission username role
    exact htracks.authorize_iff
  · intro call answer next hcall hnew username hother token permission role
    obtain ⟨hissues, hends, hgrants⟩ := htracks.other_users token answer hother
    rw [(htracks.perform hcall hnew).authorize_iff, htracks.authorize_iff, valid_concat,
      currentRole_concat, hgrants, Option.none_or]
    constructor
    · rintro ⟨hissued | ⟨hvalid, -⟩, hrest⟩
      · exact absurd hissued hissues
      · exact ⟨hvalid, hrest⟩
    · rintro ⟨hvalid, hrest⟩
      exact ⟨.inr ⟨hvalid, hends hvalid⟩, hrest⟩

end Documented

/-- Hashes are passwords behind a dollar sign. -/
@[reducible] def plainHashing : PasswordHashing where
  parseError encoded := if encoded.startsWith "$" then none else some "password hash string invalid"
  verify password encoded := encoded = "$" ++ password

/-- A user logs in twice, and one of the sessions is revoked. -/
def twoSessions : List AuthCall :=
  [.createUser "reader" "correct horse" .readOnly (.ok "$correct horse"),
    .authenticate "reader" "correct horse" (.ok "first"),
    .authenticate "reader" "correct horse" (.ok "second"), .revoke "first"]

/-- The session that was not revoked is valid. -/
theorem sessions_exactly_valid_twoSessions :
    let _ := CharacterTables.ascii
    let _ := plainHashing
    (record twoSessions ⟨.empty, .empty, "$dummy"⟩).2.authorize "second" .read =
        .ok ⟨"reader", .readOnly⟩ ∧
      Valid (record twoSessions ⟨.empty, .empty, "$dummy"⟩).1 "second" "reader" := by
  intro tables hashing
  have hfresh : (issuedTokens (record twoSessions ⟨.empty, .empty, "$dummy"⟩).1).Nodup := by
    decide +kernel
  have hread : (record twoSessions ⟨.empty, .empty, "$dummy"⟩).2.authorize "second" .read =
      .ok ⟨"reader", .readOnly⟩ := by
    decide +kernel
  exact ⟨hread, ((sessions_exactly_valid "$dummy" twoSessions hfresh).1 _ _ _ _).mp hread |>.1⟩

end NovaBase.Auth
