import Fukulow.Authority
import Fukulow.Departures
import Fukulow.Owners
import Fukulow.Posting
import Fukulow.InviteUse
import Fukulow.Ledger
import Fukulow.AuditHistory
import Fukulow.Listings
import Fukulow.PostAccess
import Fukulow.OwnerRefusals
import Fukulow.Privilege
import Fukulow.Acceptance
import Fukulow.Guards
import Fukulow.LeaveService
import Fukulow.Reading
import Fukulow.SessionLife
import Fukulow.MessageBodies
import Fukulow.SigningIn
import Fukulow.Auth.Passwords
import Fukulow.Auth.Tokens
import Fukulow.App.Paths
import Fukulow.App.Origins
import Fukulow.Uniqueness
import Fukulow.App.Accepting
import Fukulow.Constraints
import Fukulow.Permanence
