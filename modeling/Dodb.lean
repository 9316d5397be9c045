import Dodb.Storage.WalReopen
import Dodb.Protocol.Replies
import Dodb.Server.Replies
import Dodb.Btree.Walks
import Dodb.Malformed.Protocol
import Dodb.Client.Generation
import Dodb.Soak.Reconcile
import Dodb.Btree.Lifetime
